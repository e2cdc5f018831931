import Carbon.Modbus

namespace Carbon

namespace Modbus

-- The source's test, whose comment says that it checks for an error.
def Result.hasValue (result : Result) : Bool := !result.success

namespace Response

-- A complete response in the parser's layout, and one with this value.
def Framed (slave : ModbusSlave) (functionCode : UInt8) (bytes : List UInt8) : Prop :=
  ∃ hi lo rest, bytes = slave.slaveId :: functionCode :: 2 :: hi :: lo :: rest

def Complete (slave : ModbusSlave) (functionCode : UInt8) (bytes : List UInt8) (value : UInt16) : Prop :=
  ∃ hi lo rest, bytes = slave.slaveId :: functionCode :: 2 :: hi :: lo :: rest ∧
    value.toNat = hi.toNat * 256 + lo.toNat

-- A value comes from the bytes received, and success from an echo of the request
-- (its padding apart).
def OnlyComplete (x : Connection) (slave : ModbusSlave) (functionCode : UInt8) (result : Result) : Prop :=
  result.success = true → ∃ bytes, x.received = some bytes ∧ Complete slave functionCode bytes result.value

def OnlyEchoed (x : Connection) (request : ModbusMessage) (error : Error) : Prop :=
  error = success → ∃ bytes, x.received = some bytes ∧ request.bytes.dropLast <+: bytes

-- A connection that was made is closed and deleted once.
def Released (x : Connection) (slave : ModbusSlave) (calls : List Call) : Prop :=
  calls.count .netconnClose = (if isValidIp slave && x.created then 1 else 0) ∧
    calls.count .netconnDelete = (if isValidIp slave && x.created then 1 else 0)

structure ReadValidated (x : Connection) (slave : ModbusSlave) (functionCode : UInt8)
    (outcome : Result × List Call) : Prop where
  value : OnlyComplete x slave functionCode outcome.1
  hasValue : outcome.1.hasValue = outcome.1.success
  released : Released x slave outcome.2

structure WriteValidated (x : Connection) (slave : ModbusSlave) (request : ModbusMessage)
    (outcome : Error × List Call) : Prop where
  echo : OnlyEchoed x request outcome.1
  released : Released x slave outcome.2

structure Validated (x : Connection) (slave : ModbusSlave) (startAddress value : UInt16) (stack : Stack) : Prop where
  holding : ReadValidated x slave funcReadHoldingRegisters (readHoldingRegister x slave startAddress stack)
  input : ReadValidated x slave funcReadInputRegisters (readInputRegister x slave startAddress stack)
  write : WriteValidated x slave (constructWriteRegister stack.request slave startAddress value)
    (writeHoldingRegister x slave startAddress value stack)

-- The test of processResponse.
def Accepted (response : List UInt8) : Prop :=
  (response.getD 1 0 = funcReadHoldingRegisters ∨ response.getD 1 0 = funcReadInputRegisters) ∧
    response.getD 2 0 = 2

variable {x : Connection} {slave : ModbusSlave} {startAddress value : UInt16} {stack : Stack}
  {request : ModbusMessage} {functionCode : UInt8}

theorem toNat_word (hi lo : UInt8) : (hi.toUInt16 <<< 8 ||| lo.toUInt16).toNat = hi.toNat * 256 + lo.toNat := by
  have hhi := hi.toNat_lt
  have hlo := lo.toNat_lt
  rw [UInt16.toNat_or, UInt16.toNat_shiftLeft, UInt8.toNat_toUInt16, UInt8.toNat_toUInt16]
  have hshift : hi.toNat <<< ((8 : UInt16).toNat % 16) % 2 ^ 16 = hi.toNat <<< 8 := by
    rw [show (8 : UInt16).toNat % 16 = 8 from rfl, Nat.shiftLeft_eq]
    omega
  rw [hshift, ← Nat.shiftLeft_add_eq_or_of_lt hlo, Nat.shiftLeft_eq]

theorem processResponse_accepted {response : List UInt8} (h : Accepted response) :
    processResponse response maxPduSize =
      .ofValue ((response.getD 3 0).toUInt16 <<< 8 ||| (response.getD 4 0).toUInt16) := by
  unfold processResponse
  rw [if_neg (by decide)]
  exact if_pos h

theorem processResponse_refused {response : List UInt8} (h : ¬Accepted response) :
    processResponse response maxPduSize = .ofError modbusResponseFailed := by
  unfold processResponse
  rw [if_neg (by decide)]
  exact if_neg h

theorem transact_released (x : Connection) (slave : ModbusSlave) (request : ModbusMessage) :
    Released x slave (transact x slave request).2 := by
  obtain ⟨created, connected, written, received⟩ := x
  unfold transact Released
  cases isValidIp slave with
  | false => exact ⟨rfl, rfl⟩
  | true =>
      cases created with
      | false => exact ⟨rfl, rfl⟩
      | true =>
          cases connected with
          | false => exact ⟨rfl, rfl⟩
          | true =>
              cases written with
              | false => exact ⟨rfl, rfl⟩
              | true => cases received <;> exact ⟨rfl, rfl⟩

theorem readRegister_released (x : Connection) (slave : ModbusSlave) (startAddress : UInt16) (stack : Stack)
    (functionCode : UInt8) : Released x slave (readRegister x slave startAddress stack functionCode).2 := by
  rw [readRegister_calls]
  exact transact_released x slave _

theorem writeHoldingRegister_released (x : Connection) (slave : ModbusSlave) (startAddress value : UInt16)
    (stack : Stack) : Released x slave (writeHoldingRegister x slave startAddress value stack).2 := by
  rw [writeHoldingRegister_calls]
  exact transact_released x slave _

-- A read returns a value of another response, or of none, exactly when the test
-- of the parser accepts one: it looks neither at the slave nor at the function
-- that was requested, and its buffer goes on beyond a short answer.
theorem onlyComplete_iff :
    OnlyComplete x slave functionCode (readRegister x slave startAddress stack functionCode).1 ↔
      ∀ bytes, Answered x slave bytes → Accepted (netbufCopy bytes stack.response) →
        Framed slave functionCode bytes := by
  constructor
  · intro h bytes hanswered haccepted
    rw [readRegister_answered hanswered, processResponse_accepted haccepted] at h
    obtain ⟨other, hreceived, hi, lo, rest, hother, _⟩ := h rfl
    cases hanswered.2.2.2.2.symm.trans hreceived
    exact ⟨hi, lo, rest, hother⟩
  · intro h hsuccess
    by_cases hanswer : ∃ bytes, Answered x slave bytes
    · obtain ⟨bytes, hanswered⟩ := hanswer
      rw [readRegister_answered hanswered] at hsuccess ⊢
      by_cases haccepted : Accepted (netbufCopy bytes stack.response)
      · obtain ⟨hi, lo, rest, rfl⟩ := h bytes hanswered haccepted
        refine ⟨_, hanswered.2.2.2.2, hi, lo, rest, rfl, ?_⟩
        rw [processResponse_accepted haccepted]
        exact toNat_word hi lo
      · rw [processResponse_refused haccepted] at hsuccess
        cases hsuccess
    · rw [readRegister_unanswered (not_exists.mp hanswer)] at hsuccess
      cases hsuccess

-- A write succeeds on any answer.
theorem onlyEchoed_iff :
    OnlyEchoed x (constructWriteRegister stack.request slave startAddress value)
        (writeHoldingRegister x slave startAddress value stack).1 ↔
      ∀ bytes, Answered x slave bytes →
        (constructWriteRegister stack.request slave startAddress value).bytes.dropLast <+: bytes := by
  constructor
  · intro h bytes hanswered
    unfold writeHoldingRegister at h
    rw [transact_ok hanswered] at h
    obtain ⟨other, hreceived, hecho⟩ := h rfl
    cases hanswered.2.2.2.2.symm.trans hreceived
    exact hecho
  · intro h hsuccess
    by_cases hanswer : ∃ bytes, Answered x slave bytes
    · obtain ⟨bytes, hanswered⟩ := hanswer
      exact ⟨bytes, hanswered.2.2.2.2, h bytes hanswered⟩
    · exact absurd hsuccess (writeHoldingRegister_unanswered (not_exists.mp hanswer))

theorem hasValue_ne (result : Result) : result.hasValue ≠ result.success := by
  unfold Result.hasValue
  cases result.success <;> decide

theorem not_validated : ¬Validated x slave startAddress value stack :=
  fun h => hasValue_ne _ h.holding.hasValue

-- No call is validated as a whole, for hasValue is true of errors alone; the other
-- parts hold on the answers named here, and the connection is always released.
theorem responses_never_validated (x : Connection) (slave : ModbusSlave) (startAddress value : UInt16)
    (stack : Stack) :
    ¬Validated x slave startAddress value stack ∧
    (∀ result : Result, result.hasValue ≠ result.success) ∧
    (OnlyComplete x slave funcReadHoldingRegisters (readHoldingRegister x slave startAddress stack).1 ↔
      ∀ bytes, Answered x slave bytes → Accepted (netbufCopy bytes stack.response) →
        Framed slave funcReadHoldingRegisters bytes) ∧
    (OnlyComplete x slave funcReadInputRegisters (readInputRegister x slave startAddress stack).1 ↔
      ∀ bytes, Answered x slave bytes → Accepted (netbufCopy bytes stack.response) →
        Framed slave funcReadInputRegisters bytes) ∧
    (OnlyEchoed x (constructWriteRegister stack.request slave startAddress value)
        (writeHoldingRegister x slave startAddress value stack).1 ↔
      ∀ bytes, Answered x slave bytes →
        (constructWriteRegister stack.request slave startAddress value).bytes.dropLast <+: bytes) ∧
    Released x slave (readHoldingRegister x slave startAddress stack).2 ∧
    Released x slave (readInputRegister x slave startAddress stack).2 ∧
    Released x slave (writeHoldingRegister x slave startAddress value stack).2 :=
  ⟨not_validated, hasValue_ne, onlyComplete_iff, onlyComplete_iff, onlyEchoed_iff,
    readRegister_released x slave startAddress stack _, readRegister_released x slave startAddress stack _,
    writeHoldingRegister_released x slave startAddress value stack⟩

-- One byte is received, and the rest of a response is on the stack from before.
def stale : Stack :=
  ⟨⟨0, 0, 0, 0, 0, 0, 0⟩, [1, 3, 2, 0x12, 0x34] ++ List.replicate 251 0,
    by rw [List.length_append, List.length_replicate]; rfl⟩

theorem stale_bytes_read_as_value :
    ¬∀ x slave startAddress value stack, Validated x slave startAddress value stack := by
  intro h
  let x : Connection := ⟨true, true, true, some [9]⟩
  have hread := (h x ⟨0xC0A80002, 1⟩ 0 0 stale).holding.value
  have hvalue : (readHoldingRegister x ⟨0xC0A80002, 1⟩ 0 stale).1 = .ofValue 0x1234 := rfl
  rw [hvalue] at hread
  obtain ⟨bytes, hreceived, hi, lo, rest, hbytes, _⟩ := hread rfl
  cases hreceived
  cases hbytes

end Response

end Modbus

end Carbon
