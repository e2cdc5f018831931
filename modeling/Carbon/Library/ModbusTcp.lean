import Mathlib.Algebra.Ring.Nat
import Mathlib.Logic.Function.Basic

namespace ModbusTcp

-- 16-bit fields are big-endian.
def word (high low : UInt8) : UInt16 := .ofNat (high.toNat * 256 + low.toNat)

def wordBytes (w : UInt16) : List UInt8 := [.ofNat (w.toNat / 256), .ofNat (w.toNat % 256)]

inductive Parsed
  | incomplete
  | malformed
  | adu (transaction : UInt16) (unit : UInt8) (pdu : List UInt8)
  deriving DecidableEq

-- The MBAP header: transaction, protocol 0, the number of bytes that follow,
-- which start with the unit. A PDU has at most 253 bytes.
def parse : List UInt8 → Parsed
  | t₁ :: t₀ :: p₁ :: p₀ :: l₁ :: l₀ :: rest =>
      let length := (word l₁ l₀).toNat
      if word p₁ p₀ ≠ 0 ∨ length < 2 ∨ 254 < length then .malformed
      else if rest.length < length then .incomplete
      else match rest.take length with
        | unit :: pdu => .adu (word t₁ t₀) unit pdu
        | [] => .malformed
  | _ => .incomplete

def frame (transaction : UInt16) (unit : UInt8) (pdu : List UInt8) : List UInt8 :=
  wordBytes transaction ++ [0, 0] ++ wordBytes (.ofNat (pdu.length + 1)) ++ unit :: pdu

structure Registers where
  holding : UInt16 → UInt16
  input : UInt16 → UInt16

def exception (function code : UInt8) : List UInt8 := [function ||| 0x80, code]

def readResponse (function : UInt8) (file : UInt16 → UInt16) (address quantity : UInt16) : List UInt8 :=
  let count := quantity.toNat
  if count < 1 ∨ 125 < count then exception function 3
  else if 2 ^ 16 < address.toNat + count then exception function 2
  else function :: .ofNat (2 * count) ::
    (List.range count).flatMap fun k => wordBytes (file (address + .ofNat k))

-- Function 3 reads holding registers, 4 input registers, 6 writes one holding
-- register and is echoed.
def execute (registers : Registers) : List UInt8 → Registers × List UInt8
  | [3, a₁, a₀, q₁, q₀] => (registers, readResponse 3 registers.holding (word a₁ a₀) (word q₁ q₀))
  | [4, a₁, a₀, q₁, q₀] => (registers, readResponse 4 registers.input (word a₁ a₀) (word q₁ q₀))
  | [6, a₁, a₀, v₁, v₀] =>
      ({ registers with holding := Function.update registers.holding (word a₁ a₀) (word v₁ v₀) },
        [6, a₁, a₀, v₁, v₀])
  | function :: _ => (registers, exception function (if function ∈ [3, 4, 6] then 3 else 1))
  | [] => (registers, [])

-- The requests for one register.
def requests (address value : UInt16) : List (List UInt8) :=
  [3 :: wordBytes address ++ wordBytes 1, 4 :: wordBytes address ++ wordBytes 1,
    6 :: wordBytes address ++ wordBytes value]

-- A slave waits for the rest of an incomplete unit, drops a malformed one, and
-- executes the requests for one register that are sent to its unit.
structure Slave (unit : UInt8) where
  serve : Registers → List UInt8 → Registers × Option (List UInt8)
  waits : ∀ registers stream, parse stream = .incomplete → serve registers stream = (registers, none)
  drops : ∀ registers stream, parse stream = .malformed → serve registers stream = (registers, none)
  executes : ∀ registers transaction address value, ∀ pdu ∈ requests address value,
    serve registers (frame transaction unit pdu) =
      ((execute registers pdu).1, some (frame transaction unit (execute registers pdu).2))

theorem toNat_word (high low : UInt8) : (word high low).toNat = high.toNat * 256 + low.toNat := by
  have hhigh := high.toNat_lt
  have hlow := low.toNat_lt
  unfold word
  rw [UInt16.toNat_ofNat']
  omega

theorem word_wordBytes (w : UInt16) :
    word (.ofNat (w.toNat / 256)) (.ofNat (w.toNat % 256)) = w := by
  have hw := w.toNat_lt
  apply UInt16.toNat_inj.mp
  rw [toNat_word, UInt8.toNat_ofNat', UInt8.toNat_ofNat']
  omega

-- A length field beyond the largest unit makes the stream malformed, whatever
-- its protocol field says.
theorem parse_of_length {t₁ t₀ p₁ p₀ l₁ l₀ : UInt8} {rest : List UInt8} (h : 0 < l₁) :
    parse (t₁ :: t₀ :: p₁ :: p₀ :: l₁ :: l₀ :: rest) = .malformed := by
  have hpos : 0 < l₁.toNat := UInt8.lt_iff_toNat_lt.mp h
  have hlong : 254 < (word l₁ l₀).toNat := by
    rw [toNat_word]
    omega
  unfold parse
  exact if_pos (.inr (.inr hlong))

theorem parse_frame (transaction : UInt16) (unit : UInt8) (pdu : List UInt8) (hpos : 0 < pdu.length)
    (hle : pdu.length ≤ 253) : parse (frame transaction unit pdu) = .adu transaction unit pdu := by
  have hlength : (word (.ofNat ((pdu.length + 1) / 256)) (.ofNat ((pdu.length + 1) % 256))).toNat =
      pdu.length + 1 := by
    rw [toNat_word, UInt8.toNat_ofNat', UInt8.toNat_ofNat']
    omega
  have hsmall : (UInt16.ofNat (pdu.length + 1)).toNat = pdu.length + 1 := by
    rw [UInt16.toNat_ofNat']
    omega
  have hprotocol : word 0 0 = 0 := rfl
  unfold frame wordBytes
  simp only [List.cons_append, List.nil_append, parse, word_wordBytes, hsmall, hlength]
  have hwell : ¬(word 0 0 ≠ 0 ∨ pdu.length + 1 < 2 ∨ 254 < pdu.length + 1) := by
    rintro (hne | hlength)
    · exact hne hprotocol
    · omega
  rw [if_neg hwell, if_neg (by simp), List.take_of_length_le (by simp)]

-- A well-formed request for one register is answered with its value.
theorem Slave.read_holding {unit : UInt8} (server : Slave unit) (registers : Registers)
    (transaction address : UInt16) :
    server.serve registers (frame transaction unit (3 :: wordBytes address ++ wordBytes 1)) =
      (registers, some (frame transaction unit (3 :: 2 :: wordBytes (registers.holding address)))) := by
  have haddress := address.toNat_lt
  have hexecute : execute registers (3 :: wordBytes address ++ wordBytes 1) =
      (registers, readResponse 3 registers.holding address 1) := by
    simp only [wordBytes, List.cons_append, List.nil_append, execute, word_wordBytes]
  have hresponse : readResponse 3 registers.holding address 1 =
      3 :: 2 :: wordBytes (registers.holding address) := by
    have hcount : (1 : UInt16).toNat = 1 := rfl
    unfold readResponse
    simp only [hcount]
    rw [if_neg (by omega), if_neg (by omega)]
    simp
  have hserve := server.executes registers transaction address 0
    (3 :: wordBytes address ++ wordBytes 1) (List.mem_cons_self ..)
  rw [hserve, hexecute, hresponse]

-- The slave that answers every complete and well-formed unit.
def serve (registers : Registers) (stream : List UInt8) : Registers × Option (List UInt8) :=
  match parse stream with
  | .adu transaction unit pdu =>
      ((execute registers pdu).1, some (frame transaction unit (execute registers pdu).2))
  | .incomplete | .malformed => (registers, none)

theorem serve_frame (registers : Registers) (transaction : UInt16) (unit : UInt8) {pdu : List UInt8}
    (hpos : 0 < pdu.length) (hle : pdu.length ≤ 253) : serve registers (frame transaction unit pdu) =
      ((execute registers pdu).1, some (frame transaction unit (execute registers pdu).2)) := by
  unfold serve
  rw [parse_frame transaction unit pdu hpos hle]

theorem length_of_mem_requests {address value : UInt16} {pdu : List UInt8}
    (h : pdu ∈ requests address value) : pdu.length = 5 := by
  simp only [requests, List.mem_cons, List.not_mem_nil, or_false] at h
  rcases h with rfl | rfl | rfl <;> rfl

def slave (unit : UInt8) : Slave unit where
  serve := serve
  waits registers stream hparse := by rw [serve, hparse]
  drops registers stream hparse := by rw [serve, hparse]
  executes registers transaction address value pdu hpdu := by
    have hlength := length_of_mem_requests hpdu
    exact serve_frame registers transaction unit (by omega) (by omega)

end ModbusTcp
