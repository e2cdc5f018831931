import Carbon.Library.Transition
import Mathlib.Data.BitVec
import Mathlib.Data.List.Iterate
import Mathlib.Logic.Function.Basic

namespace Carbon

namespace Receive

def ethRxBufferSizeAligned : Nat := 1536

-- The number of elements of rx_pool.
def rxPoolSize : Nat := 10

-- A descriptor of dmaRxDscrTab and a row of rx_Buff; ETH_RX_DESC_CNT is 9.
abbrev Pointer := Fin 9
abbrev Buffer := Fin 9

def increaseRxPointer (pointer : Pointer) : Pointer :=
  if pointer = 8 then 0 else pointer + 1

-- DESC3 as it is armed (OWN, IOC, BUF1V) and as it is read back.
def armedDesc3 : BitVec 32 := 0xC1000000#32
def ownMask : BitVec 32 := 0x80000000#32

def owned (desc3 : BitVec 32) : Bool := desc3.getLsbD 31
def context (desc3 : BitVec 32) : Bool := desc3.getLsbD 30
def firstDescriptor (desc3 : BitVec 32) : Bool := desc3.getLsbD 29
def lastDescriptor (desc3 : BitVec 32) : Bool := desc3.getLsbD 28
def packetLength (desc3 : BitVec 32) : Nat := (desc3 &&& 0x7FFF#32).toNat

-- DESC0 is the buffer.
structure Descriptor where
  buffer : Buffer
  desc3 : BitVec 32

def prepareRxDesc (buffer : Buffer) : Descriptor := ⟨buffer, armedDesc3⟩

-- Where the thread of carbon_lwip_input stands: at its semaphore, before and
-- within carbon_lwip_low_level_input, in netif->input, or in a pbuf_free of its
-- own. Beyond its first reads low_level_input has the buffer (and the length) it
-- found in the descriptor to process.
inductive InputPc
  | wait
  | drain
  | looked (buffer : Buffer) (length : Nat)
  | passed (buffer : Buffer) (length : Nat)
  | discard (buffer : Buffer)
  | discarding
  | alloc (buffer : Buffer)
  | deliver (buffer : Buffer)
  | input (buffer : Buffer)
  | freeing (buffer : Buffer)
  deriving DecidableEq

-- The points of carbon_lwip_prepare_rx_descriptor, with what it has read.
inductive Stage
  | entered
  | tailRead (tail : Pointer)
  | toProcessRead (tail toProcess : Pointer)
  | checked (tail : Pointer)
  | written (tail : Pointer)
  | done
  | error
  deriving DecidableEq

-- The holder of rx_ptk_mutex gives a buffer back, for DISCARD_DESCRIPTOR or for
-- pbuf_free_custom.
structure Holder where
  buffer : Buffer
  discard : Bool
  stage : Stage
  deriving DecidableEq

-- The live pbufs and, of those given back by pbuf_free_custom, the ones that wait
-- for the mutex and the ones not yet back in the pool, all by their buffers; RI of
-- DMACSR, the interrupt handler between the release and the clearing of RI, and
-- the semaphore's token; whether the DMA wrote into a live pbuf.
structure State where
  desc : Pointer → Descriptor
  toProcess : Pointer
  tail : Pointer
  current : Pointer
  pc : InputPc
  holder : Option Holder
  live : List Buffer
  waiting : List Buffer
  returning : List Buffer
  poolUsed : Nat
  ri : Bool
  isrReleased : Bool
  token : Bool
  criticalError : Bool
  clobbered : Bool

-- carbon_hw_ethernet_rx_dec_list_init and carbon_hw_ethernet_start.
def start : State where
  desc := prepareRxDesc
  toProcess := 0
  tail := 8
  current := 0
  pc := .wait
  holder := none
  live := []
  waiting := []
  returning := []
  poolUsed := 0
  ri := false
  isrReleased := false
  token := false
  criticalError := false
  clobbered := false

-- The tests of low_level_input on DESC3, with the length it read before.
def judge (desc3 : BitVec 32) (buffer : Buffer) (length : Nat) : InputPc :=
  if owned desc3 then .wait
  else if context desc3 then .discard buffer
  else if firstDescriptor desc3 = false then .discard buffer
  else if lastDescriptor desc3 = false then .discard buffer
  else if ethRxBufferSizeAligned < length then .discard buffer
  else .alloc buffer

-- DISCARD_DESCRIPTOR up to its call of carbon_lwip_prepare_rx_descriptor.
def discardDescriptor (s : State) (buffer : Buffer) : State :=
  { s with
    pc := .discarding
    toProcess := increaseRxPointer s.toProcess
    holder := some ⟨buffer, true, .entered⟩ }

def alloc (s : State) (buffer : Buffer) : State :=
  if s.poolUsed = rxPoolSize then { s with pc := .wait }
  else { s with pc := .deliver buffer, poolUsed := s.poolUsed + 1 }

def deliver (s : State) (buffer : Buffer) : State :=
  { s with
    pc := .input buffer
    toProcess := increaseRxPointer s.toProcess
    live := buffer :: s.live }

-- The next step of carbon_lwip_input; netif->input returns ERR_OK.
def inputStep (s : State) : Option State :=
  match s.pc with
  | .wait => if s.token then some { s with token := false, pc := .drain } else none
  | .drain =>
      let desc := s.desc s.toProcess
      some { s with pc := .looked desc.buffer (packetLength desc.desc3) }
  | .looked buffer length =>
      some { s with pc := if s.toProcess = s.current then .wait else .passed buffer length }
  | .passed buffer length => some { s with pc := judge (s.desc s.toProcess).desc3 buffer length }
  | .discard buffer => if s.holder = none then some (discardDescriptor s buffer) else none
  | .alloc buffer => some (alloc s buffer)
  | .deliver buffer => some (deliver s buffer)
  | .input _ => some { s with pc := .drain }
  | .discarding | .freeing _ => none

def free (s : State) (buffer : Buffer) : State :=
  { s with live := s.live.erase buffer, waiting := buffer :: s.waiting }

def lock (s : State) (buffer : Buffer) : State :=
  { s with waiting := s.waiting.erase buffer, holder := some ⟨buffer, false, .entered⟩ }

def reach (s : State) (holder : Holder) (stage : Stage) : State :=
  { s with holder := some { holder with stage } }

def checkPointers (s : State) (holder : Holder) (tail toProcess : Pointer) : State :=
  if s.current = increaseRxPointer tail ∨ toProcess = increaseRxPointer tail then
    reach { s with criticalError := true } holder .error
  else reach s holder (.checked tail)

def writeDesc (s : State) (holder : Holder) (tail : Pointer) : State :=
  reach { s with desc := Function.update s.desc tail (prepareRxDesc holder.buffer) } holder (.written tail)

def writeTail (s : State) (holder : Holder) (tail : Pointer) : State :=
  reach { s with tail := increaseRxPointer tail } holder .done

-- After a discard carbon_lwip_low_level_input returns NULL, and the drain loop
-- ends.
def unlock (s : State) (holder : Holder) : State :=
  if holder.discard then { s with holder := none, pc := .wait }
  else { s with holder := none, returning := holder.buffer :: s.returning }

-- The next step of the thread that holds the mutex.
def prepareStep (s : State) : Option State :=
  match s.holder with
  | none => none
  | some holder =>
      match holder.stage with
      | .entered => some (reach s holder (.tailRead s.tail))
      | .tailRead tail => some (reach s holder (.toProcessRead tail s.toProcess))
      | .toProcessRead tail toProcess => some (checkPointers s holder tail toProcess)
      | .checked tail => some (writeDesc s holder tail)
      | .written tail => some (writeTail s holder tail)
      | .done => some (unlock s holder)
      | .error => none

-- LWIP_MEMPOOL_FREE, with which pbuf_free_custom ends.
def poolFree (s : State) (buffer : Buffer) : State :=
  { s with
    returning := s.returning.erase buffer
    poolUsed := s.poolUsed - 1
    pc := if s.pc = .freeing buffer then .drain else s.pc }

-- The DMA stores to the buffer of its descriptor.
def store (s : State) : State :=
  { s with clobbered := s.clobbered || decide ((s.desc s.current).buffer ∈ s.live) }

def complete (s : State) (status : BitVec 32) : State :=
  { store s with
    desc := Function.update s.desc s.current
      { s.desc s.current with desc3 := status &&& ~~~ownMask }
    current := increaseRxPointer s.current
    ri := true }

-- inputFailed is the return of another result by netif->input. The DMA works on
-- its descriptors up to the tail pointer. The handler keeps the threads from
-- running; they interleave otherwise, as one that held rx_ptk_mutex keeps the
-- priority it inherited from the input thread while it holds another mutex.
inductive Event
  | input
  | inputFailed
  | free (buffer : Buffer)
  | lock (buffer : Buffer)
  | prepare
  | poolFree (buffer : Buffer)
  | dmaStore
  | dmaComplete (status : BitVec 32)
  | isrRelease
  | isrClear

def dmaRuns (s : State) : Bool :=
  decide (s.current ≠ s.tail) && owned (s.desc s.current).desc3

def inputFailed (s : State) : Option State :=
  match s.pc with
  | .input buffer =>
      if buffer ∈ s.live then some { free s buffer with pc := .freeing buffer } else none
  | .wait | .drain | .looked _ _ | .passed _ _ | .discard _ | .discarding | .alloc _ | .deliver _
  | .freeing _ => none

def step (s : State) : Event → Option State
  | .input => if s.isrReleased = false then inputStep s else none
  | .inputFailed => if s.isrReleased = false then inputFailed s else none
  | .free buffer => if s.isrReleased = false ∧ buffer ∈ s.live then some (free s buffer) else none
  | .lock buffer =>
      if s.isrReleased = false ∧ s.holder = none ∧ buffer ∈ s.waiting then some (lock s buffer) else none
  | .prepare => if s.isrReleased = false then prepareStep s else none
  | .poolFree buffer =>
      if s.isrReleased = false ∧ buffer ∈ s.returning then some (poolFree s buffer) else none
  | .dmaStore => if dmaRuns s then some (store s) else none
  | .dmaComplete status => if dmaRuns s then some (complete s status) else none
  | .isrRelease =>
      if s.isrReleased = false ∧ s.ri then some { s with token := true, isrReleased := true } else none
  | .isrClear => if s.isrReleased then some { s with ri := false, isrReleased := false } else none

def system : Transition.System State Event where
  initial s := s = start
  step := step

-- All that an event can do.
theorem step_cases {s t : State} {e : Event} (h : step s e = some t) :
    match e with
    | .input => s.isrReleased = false ∧ inputStep s = some t
    | .inputFailed => s.isrReleased = false ∧
        ∃ buffer, s.pc = .input buffer ∧ buffer ∈ s.live ∧ t = { free s buffer with pc := .freeing buffer }
    | .free buffer => s.isrReleased = false ∧ buffer ∈ s.live ∧ t = free s buffer
    | .lock buffer => s.isrReleased = false ∧ s.holder = none ∧ buffer ∈ s.waiting ∧ t = lock s buffer
    | .prepare => s.isrReleased = false ∧ prepareStep s = some t
    | .poolFree buffer => s.isrReleased = false ∧ buffer ∈ s.returning ∧ t = poolFree s buffer
    | .dmaStore => dmaRuns s = true ∧ t = store s
    | .dmaComplete status => dmaRuns s = true ∧ t = complete s status
    | .isrRelease => s.isrReleased = false ∧ s.ri = true ∧ t = { s with token := true, isrReleased := true }
    | .isrClear => s.isrReleased = true ∧ t = { s with ri := false, isrReleased := false } := by
  cases e with
  | input | prepare => exact Option.ite_none_right_eq_some.mp h
  | inputFailed =>
      obtain ⟨hidle, h⟩ := Option.ite_none_right_eq_some.mp h
      unfold inputFailed at h
      split at h
      · rename_i buffer hpc
        obtain ⟨hlive, h⟩ := Option.ite_none_right_eq_some.mp h
        exact ⟨hidle, buffer, hpc, hlive, (Option.some.inj h).symm⟩
      all_goals cases h
  | free buffer =>
      obtain ⟨⟨hidle, hlive⟩, h⟩ := Option.ite_none_right_eq_some.mp h
      exact ⟨hidle, hlive, (Option.some.inj h).symm⟩
  | lock buffer =>
      obtain ⟨⟨hidle, hfree, hwaiting⟩, h⟩ := Option.ite_none_right_eq_some.mp h
      exact ⟨hidle, hfree, hwaiting, (Option.some.inj h).symm⟩
  | poolFree buffer =>
      obtain ⟨⟨hidle, hreturning⟩, h⟩ := Option.ite_none_right_eq_some.mp h
      exact ⟨hidle, hreturning, (Option.some.inj h).symm⟩
  | dmaStore | dmaComplete status | isrClear =>
      obtain ⟨hon, h⟩ := Option.ite_none_right_eq_some.mp h
      exact ⟨hon, (Option.some.inj h).symm⟩
  | isrRelease =>
      obtain ⟨⟨hidle, hri⟩, h⟩ := Option.ite_none_right_eq_some.mp h
      exact ⟨hidle, hri, (Option.some.inj h).symm⟩

end Receive

end Carbon
