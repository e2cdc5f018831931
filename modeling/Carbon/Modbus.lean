import Mathlib.Tactic.SplitIfs

namespace Carbon

namespace Modbus

inductive ErrorGroupType
  | none
  | network
  | modbus
  deriving DecidableEq

inductive ErrorType
  | none
  | networkConnectionFailed
  | networkInvalidIP
  | modbusRequestFailed
  | modbusResponseFailed
  deriving DecidableEq

structure Error where
  group : ErrorGroupType
  error : ErrorType
  deriving DecidableEq

def success : Error := ⟨.none, .none⟩
def networkConnectionFailed : Error := ⟨.network, .networkConnectionFailed⟩
def networkInvalidIP : Error := ⟨.network, .networkInvalidIP⟩
def modbusRequestFailed : Error := ⟨.modbus, .modbusRequestFailed⟩
def modbusResponseFailed : Error := ⟨.modbus, .modbusResponseFailed⟩

-- Result<uint16_t>, built from a value or from an error.
structure Result where
  success : Bool
  value : UInt16
  errorInfo : Error
  deriving DecidableEq

def Result.ofValue (value : UInt16) : Result := ⟨true, value, Modbus.success⟩
def Result.ofError (errorInfo : Error) : Result := ⟨false, 0, errorInfo⟩

def maxPduSize : Nat := 256

def funcReadHoldingRegisters : UInt8 := 0x03
def funcWriteSingleHoldingRegister : UInt8 := 0x06
def funcReadInputRegisters : UInt8 := 0x04

structure ModbusSlave where
  slaveIp : UInt32
  slaveId : UInt8

-- The struct as it lies in memory: startAddress is aligned and little-endian,
-- and one byte of padding follows the data.
structure ModbusMessage where
  slaveId : UInt8
  functionCode : UInt8
  startAddress : UInt16
  byteCount : UInt8
  data₀ : UInt8
  data₁ : UInt8
  padding : UInt8

def ModbusMessage.bytes (request : ModbusMessage) : List UInt8 :=
  [request.slaveId, request.functionCode, request.startAddress.toUInt8,
    (request.startAddress >>> 8).toUInt8, request.byteCount, request.data₀, request.data₁,
    request.padding]

def ipaddrNone : UInt32 := 0xFFFFFFFF

def isValidIp (slave : ModbusSlave) : Bool := slave.slaveIp != ipaddrNone

def constructReadRegister (request : ModbusMessage) (slave : ModbusSlave) (startAddress : UInt16)
    (functionCode : UInt8) : ModbusMessage :=
  { request with slaveId := slave.slaveId, functionCode, startAddress, byteCount := 2 }

def constructWriteRegister (request : ModbusMessage) (slave : ModbusSlave) (startAddress value : UInt16) :
    ModbusMessage :=
  { request with
    slaveId := slave.slaveId
    functionCode := funcWriteSingleHoldingRegister
    startAddress
    byteCount := 2
    data₀ := ((value >>> 8) &&& 0xFF).toUInt8
    data₁ := (value &&& 0xFF).toUInt8 }

def processResponse (response : List UInt8) (len : Nat) : Result :=
  if len < 5 then .ofError modbusResponseFailed
  else
    let functionCode := response.getD 1 0
    let byteCount := response.getD 2 0
    if (functionCode = funcReadHoldingRegisters ∨ functionCode = funcReadInputRegisters) ∧ byteCount = 2 then
      .ofValue ((response.getD 3 0).toUInt16 <<< 8 ||| (response.getD 4 0).toUInt16)
    else .ofError modbusResponseFailed

-- The uninitialised locals of one call.
structure Stack where
  request : ModbusMessage
  response : List UInt8
  size : response.length = maxPduSize

def netbufCopy (bytes response : List UInt8) : List UInt8 :=
  bytes.take maxPduSize ++ response.drop bytes.length

-- The outcomes of netconn_new, netconn_connect and netconn_write, and what
-- netconn_recv returns: the bytes it received, or none for an error.
structure Connection where
  created : Bool
  connected : Bool
  written : Bool
  received : Option (List UInt8)

inductive Call
  | netconnWrite (bytes : List UInt8)
  | netbufDelete
  | netconnClose
  | netconnDelete
  deriving DecidableEq

-- The common body of the three functions: what is received or the error that is
-- returned, and the calls on the connection once it is made.
def transact (x : Connection) (slave : ModbusSlave) (request : ModbusMessage) :
    Except Error (List UInt8) × List Call :=
  if !isValidIp slave then (.error networkInvalidIP, [])
  else if !x.created then (.error networkConnectionFailed, [])
  else if !x.connected then (.error networkConnectionFailed, [.netconnClose, .netconnDelete])
  else if !x.written then
    (.error modbusRequestFailed, [.netconnWrite request.bytes, .netconnClose, .netconnDelete])
  else
    match x.received with
    | some bytes =>
        (.ok bytes, [.netconnWrite request.bytes, .netbufDelete, .netconnClose, .netconnDelete])
    | none => (.error modbusResponseFailed, [.netconnWrite request.bytes, .netconnClose, .netconnDelete])

section Functions

variable (x : Connection) (slave : ModbusSlave) (startAddress value : UInt16) (stack : Stack)

def readRegister (functionCode : UInt8) : Result × List Call :=
  match transact x slave (constructReadRegister stack.request slave startAddress functionCode) with
  | (.error errorInfo, calls) => (.ofError errorInfo, calls)
  | (.ok bytes, calls) => (processResponse (netbufCopy bytes stack.response) maxPduSize, calls)

def readHoldingRegister : Result × List Call := readRegister x slave startAddress stack funcReadHoldingRegisters

def readInputRegister : Result × List Call := readRegister x slave startAddress stack funcReadInputRegisters

def writeHoldingRegister : Error × List Call :=
  match transact x slave (constructWriteRegister stack.request slave startAddress value) with
  | (.error errorInfo, calls) => (errorInfo, calls)
  | (.ok _, calls) => (success, calls)

end Functions

-- The request is sent, and these bytes are received.
def Answered (x : Connection) (slave : ModbusSlave) (bytes : List UInt8) : Prop :=
  isValidIp slave = true ∧ x.created = true ∧ x.connected = true ∧ x.written = true ∧ x.received = some bytes

variable {x : Connection} {slave : ModbusSlave} {startAddress value : UInt16} {stack : Stack}
  {request : ModbusMessage} {functionCode : UInt8} {bytes : List UInt8}

theorem transact_ok (h : Answered x slave bytes) : transact x slave request =
    (.ok bytes, [.netconnWrite request.bytes, .netbufDelete, .netconnClose, .netconnDelete]) := by
  obtain ⟨hip, hcreated, hconnected, hwritten, hreceived⟩ := h
  unfold transact
  rw [hip, hcreated, hconnected, hwritten, hreceived]
  rfl

theorem transact_error (h : ∀ bytes, ¬Answered x slave bytes) (request : ModbusMessage) :
    ∃ errorInfo, errorInfo ≠ success ∧ (transact x slave request).1 = .error errorInfo := by
  unfold transact
  split_ifs with hip hcreated hconnected hwritten
  · exact ⟨_, by decide, rfl⟩
  · exact ⟨_, by decide, rfl⟩
  · exact ⟨_, by decide, rfl⟩
  · exact ⟨_, by decide, rfl⟩
  · cases hreceived : x.received with
    | none => exact ⟨_, by decide, rfl⟩
    | some bytes =>
        rw [Bool.not_eq_true', Bool.not_eq_false] at hip hcreated hconnected hwritten
        exact absurd ⟨hip, hcreated, hconnected, hwritten, hreceived⟩ (h bytes)

theorem readRegister_answered (h : Answered x slave bytes) :
    (readRegister x slave startAddress stack functionCode).1 =
      processResponse (netbufCopy bytes stack.response) maxPduSize := by
  unfold readRegister
  rw [transact_ok h]

theorem readRegister_unanswered (h : ∀ bytes, ¬Answered x slave bytes) :
    (readRegister x slave startAddress stack functionCode).1.success = false := by
  obtain ⟨errorInfo, _, herror⟩ :=
    transact_error h (constructReadRegister stack.request slave startAddress functionCode)
  unfold readRegister
  split <;> rename_i hcalls <;> rw [hcalls] at herror
  · rfl
  · cases herror

theorem writeHoldingRegister_unanswered (h : ∀ bytes, ¬Answered x slave bytes) :
    (writeHoldingRegister x slave startAddress value stack).1 ≠ success := by
  obtain ⟨errorInfo, hne, herror⟩ :=
    transact_error h (constructWriteRegister stack.request slave startAddress value)
  unfold writeHoldingRegister
  split <;> rename_i hcalls <;> rw [hcalls] at herror <;> cases herror
  exact hne

theorem readRegister_calls : (readRegister x slave startAddress stack functionCode).2 =
    (transact x slave (constructReadRegister stack.request slave startAddress functionCode)).2 := by
  unfold readRegister
  split <;> rename_i hcalls <;> rw [hcalls]

theorem writeHoldingRegister_calls : (writeHoldingRegister x slave startAddress value stack).2 =
    (transact x slave (constructWriteRegister stack.request slave startAddress value)).2 := by
  unfold writeHoldingRegister
  split <;> rename_i hcalls <;> rw [hcalls]

-- Nothing but the request is put on the wire.
theorem transact_writes (h : .netconnWrite bytes ∈ (transact x slave request).2) : bytes = request.bytes := by
  unfold transact at h
  split_ifs at h
  · cases h
  · cases h
  · simp at h
  · simpa using h
  · cases hreceived : x.received <;> simpa [hreceived] using h

end Modbus

end Carbon
