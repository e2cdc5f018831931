import Carbon.Library.ModbusTcp
import Carbon.Modbus

namespace Carbon

namespace Modbus

open ModbusTcp (Registers Slave parse frame wordBytes)

-- The outcomes of netconn_new, netconn_connect and netconn_write, what becomes
-- of a connection on which the slave has nothing to answer, and how many bytes of
-- an answer come in the first netbuf beside its first.
structure Network where
  created : Bool
  connected : Bool
  written : Bool
  closes : Bool
  arrived : Nat

def Network.reliable (network : Network) : Prop :=
  network.created = true ∧ network.connected = true ∧ network.written = true

inductive Recv
  | netbuf (bytes : List UInt8)
  | failed
  | blocked

def netconnRecv (network : Network) : Option (List UInt8) → Recv
  | some answer => .netbuf (answer.take (network.arrived + 1))
  | none => if network.closes then .failed else .blocked

-- The connection of a call that receives this.
def Network.connection (network : Network) (received : Option (List UInt8)) : Connection :=
  ⟨network.created, network.connected, network.written, received⟩

def Call.request? : Call → Option (List UInt8)
  | .netconnWrite bytes => some bytes
  | _ => none

def Network.sent (network : Network) (calls : List Call) : Option (List UInt8) :=
  if network.written then calls.findSome? Call.request? else none

-- A call over a network behind which a slave holds these registers; none is a
-- call that never returns. What a call sends comes before what it receives.
def exchange {α : Type} {unit : UInt8} (network : Network) (server : Slave unit) (registers : Registers)
    (call : Connection → α × List Call) : Registers × Option α :=
  match network.sent (call (network.connection none)).2 with
  | none => (registers, some (call (network.connection none)).1)
  | some request =>
      let (registers, answer) := server.serve registers request
      match netconnRecv network answer with
      | .netbuf bytes => (registers, some (call (network.connection (some bytes))).1)
      | .failed => (registers, some (call (network.connection none)).1)
      | .blocked => (registers, none)

-- A slave with these registers, reached over this network.
section Exchange

variable (network : Network) (slave : ModbusSlave) (server : Slave slave.slaveId) (registers : Registers)
  (startAddress value : UInt16)

def exchangeReadHolding (stack : Stack) : Registers × Option Result :=
  exchange network server registers fun x => readHoldingRegister x slave startAddress stack

def exchangeReadInput (stack : Stack) : Registers × Option Result :=
  exchange network server registers fun x => readInputRegister x slave startAddress stack

def exchangeWriteHolding (stack : Stack) : Registers × Option Error :=
  exchange network server registers fun x => writeHoldingRegister x slave startAddress value stack

def ReadsHolding (stack : Stack) : Prop :=
  (exchangeReadHolding network slave server registers startAddress stack).2 =
    some (.ofValue (registers.holding startAddress))

def ReadsInput (stack : Stack) : Prop :=
  (exchangeReadInput network slave server registers startAddress stack).2 =
    some (.ofValue (registers.input startAddress))

def WritesBack (stack stack' : Stack) : Prop :=
  let written := exchangeWriteHolding network slave server registers startAddress value stack
  written.2 = some success ∧
    (exchangeReadHolding network slave server written.1 startAddress stack').2 = some (.ofValue value) ∧
    ∀ address, address ≠ startAddress → written.1.holding address = registers.holding address

-- The bytes on the wire depend on the arguments alone.
def WireDetermined : Prop :=
  ∀ request request' : ModbusMessage,
    (∀ functionCode, (constructReadRegister request slave startAddress functionCode).bytes =
      (constructReadRegister request' slave startAddress functionCode).bytes) ∧
    (constructWriteRegister request slave startAddress value).bytes =
      (constructWriteRegister request' slave startAddress value).bytes

structure RoundTrip (stack stack' : Stack) : Prop where
  readsHolding : ReadsHolding network slave server registers startAddress stack
  readsInput : ReadsInput network slave server registers startAddress stack
  writesBack : WritesBack network slave server registers startAddress value stack stack'
  wireDetermined : WireDetermined slave startAddress value

end Exchange

variable {network : Network} {slave : ModbusSlave} {server : Slave slave.slaveId} {registers : Registers}
  {startAddress value : UInt16}

-- The byte count stands in the place of the high byte of the MBAP length.
theorem serve_message (server : Slave slave.slaveId) {request : ModbusMessage} (hcount : request.byteCount = 2) :
    server.serve registers request.bytes = (registers, none) :=
  server.drops registers request.bytes (ModbusTcp.parse_of_length (by rw [hcount]; decide))

theorem sent_transact {received : Option (List UInt8)} {request : ModbusMessage} {bytes : List UInt8}
    (h : network.sent (transact (network.connection received) slave request).2 = some bytes) :
    bytes = request.bytes := by
  unfold Network.sent at h
  split at h
  · obtain ⟨call, hmem, hcall⟩ := List.exists_of_findSome?_eq_some h
    cases call with
    | netconnWrite written =>
        cases hcall
        exact transact_writes hmem
    | netbufDelete | netconnClose | netconnDelete => cases hcall
  · cases h

-- A call that sends nothing that is answered returns what it returns without an
-- answer, or waits forever.
theorem exchange_silent {α : Type} {call : Connection → α × List Call} {result : α}
    (hsilent : ∀ request, network.sent (call (network.connection none)).2 = some request →
      server.serve registers request = (registers, none))
    (h : (exchange network server registers call).2 = some result) :
    result = (call (network.connection none)).1 := by
  unfold exchange at h
  cases hsent : network.sent (call (network.connection none)).2 with
  | none =>
      rw [hsent] at h
      exact (Option.some.inj h).symm
  | some request =>
      rw [hsent] at h
      simp only [hsilent request hsent, netconnRecv] at h
      cases hcloses : network.closes with
      | true =>
          simp only [hcloses, if_true] at h
          exact (Option.some.inj h).symm
      | false => simp [hcloses] at h

theorem connection_unanswered (bytes : List UInt8) : ¬Answered (network.connection none) slave bytes :=
  fun h => nomatch h.2.2.2.2

-- No read has a value to return.
theorem exchange_readRegister_ne (functionCode : UInt8) (stack : Stack) (value : UInt16) :
    (exchange network server registers fun x =>
      readRegister x slave startAddress stack functionCode).2 ≠ some (.ofValue value) := by
  intro h
  have hresult := exchange_silent (fun request hsent => by
    rw [readRegister_calls] at hsent
    rw [sent_transact hsent]
    exact serve_message server rfl) h
  have herror : (Result.ofValue value).success = false := by
    rw [hresult]
    exact readRegister_unanswered connection_unanswered
  cases herror

theorem not_readsHolding (stack : Stack) : ¬ReadsHolding network slave server registers startAddress stack :=
  exchange_readRegister_ne funcReadHoldingRegisters stack _

theorem not_readsInput (stack : Stack) : ¬ReadsInput network slave server registers startAddress stack :=
  exchange_readRegister_ne funcReadInputRegisters stack _

theorem exchange_writeHoldingRegister_ne (stack : Stack) :
    (exchangeWriteHolding network slave server registers startAddress value stack).2 ≠ some success := by
  intro h
  have hresult := exchange_silent (fun request hsent => by
    rw [writeHoldingRegister_calls] at hsent
    rw [sent_transact hsent]
    exact serve_message server rfl) h
  exact writeHoldingRegister_unanswered connection_unanswered hresult.symm

theorem getLast_constructWriteRegister (request : ModbusMessage) :
    (constructWriteRegister request slave startAddress value).bytes.getLast? = some request.padding := rfl

-- The padding byte is whatever the stack held.
theorem not_wireDetermined : ¬WireDetermined slave startAddress value := by
  intro h
  have hwrite := (h ⟨0, 0, 0, 0, 0, 0, 0⟩ ⟨0, 0, 0, 0, 0, 0, 1⟩).2
  have hlast := congrArg List.getLast? hwrite
  rw [getLast_constructWriteRegister, getLast_constructWriteRegister] at hlast
  exact absurd hlast (by decide)

-- Even the answer to a well-formed request would be refused: its header stands
-- where the function code and the byte count are looked for.
theorem processResponse_frame (transaction : UInt16) (unit : UInt8) (pdu : List UInt8) (stack : Stack) :
    processResponse (netbufCopy (frame transaction unit pdu) stack.response) maxPduSize =
      .ofError modbusResponseFailed := by
  have hcount : (netbufCopy (frame transaction unit pdu) stack.response).getD 2 0 = 0 := rfl
  have hzero : ¬(0 : UInt8) = 2 := by decide
  unfold processResponse
  simp only [hcount, hzero, and_false, if_false]
  exact if_neg (by decide)

theorem conforming_answer_refused (server : Slave slave.slaveId) (registers : Registers)
    (transaction startAddress : UInt16) (stack : Stack) :
    ∃ answer, server.serve registers
        (frame transaction slave.slaveId (3 :: wordBytes startAddress ++ wordBytes 1)) =
          (registers, some answer) ∧
      parse answer = .adu transaction slave.slaveId (3 :: 2 :: wordBytes (registers.holding startAddress)) ∧
      processResponse (netbufCopy answer stack.response) maxPduSize = .ofError modbusResponseFailed :=
  ⟨_, server.read_holding registers transaction startAddress,
    ModbusTcp.parse_frame _ _ _ (by simp) (by simp [wordBytes]), processResponse_frame _ _ _ stack⟩

-- Whatever the network, the slave, its registers and the arguments, no read
-- returns the register's value, no write is read back, and the wire carries stack
-- bytes.
theorem exchange_never_conforms (network : Network) (slave : ModbusSlave) (server : Slave slave.slaveId)
    (registers : Registers) (startAddress value : UInt16) (stack stack' : Stack) :
    ¬ReadsHolding network slave server registers startAddress stack ∧
      ¬ReadsInput network slave server registers startAddress stack ∧
      ¬WritesBack network slave server registers startAddress value stack stack' ∧
      ¬WireDetermined slave startAddress value :=
  ⟨not_readsHolding stack, not_readsInput stack, fun h => exchange_writeHoldingRegister_ne stack h.1,
    not_wireDetermined⟩

-- A slave whose registers all hold 7, behind a network without failures.
theorem read_fails_on_slave : ¬∀ network slave server registers startAddress value stack stack',
    network.reliable → isValidIp slave = true →
      RoundTrip network slave server registers startAddress value stack stack' := by
  intro h
  let stack : Stack := ⟨⟨0, 0, 0, 0, 0, 0, 0⟩, List.replicate 256 0, List.length_replicate⟩
  have hround := h ⟨true, true, true, true, 255⟩ ⟨0xC0A80002, 1⟩ (ModbusTcp.slave 1)
    ⟨fun _ => 7, fun _ => 7⟩ 0 7 stack stack ⟨rfl, rfl, rfl⟩ rfl
  exact not_readsHolding stack hround.readsHolding

end Modbus

end Carbon
