import Carbon.Ethernet.Transmit
import Carbon.Library.Cells
import Carbon.Word

namespace Carbon

open Transmit

namespace Gather

-- A chain of pbufs: the total length the first one states, and the len bytes
-- at the payload of each.
structure Chain where
  totLen : UInt16
  head : List UInt8
  next : List (List UInt8)

def Chain.segments (p : Chain) : List (List UInt8) := p.head :: p.next

def Chain.last (p : Chain) : List UInt8 := p.segments.getLast (List.cons_ne_nil _ _)

-- tot_len is the sum of the lengths, and the transmit buffer holds as much.
structure Chain.WellFormed (p : Chain) : Prop where
  total : p.totLen.toNat = p.segments.flatten.length
  fits : p.totLen.toNat ≤ ethRxBufferSizeAligned

inductive MutexOp
  | wait
  | release
  deriving DecidableEq

structure Descriptor where
  desc0 : BitVec 32
  desc2 : BitVec 32
  desc3 : BitVec 32
  deriving DecidableEq

-- Masks of a transmit descriptor: the length of buffer 1 and the interrupt on
-- completion in DESC2, the others in DESC3.
def b1l : BitVec 32 := 0x00003FFF#32

def ioc : BitVec 32 := 0x80000000#32

def own : BitVec 32 := 0x80000000#32

def ctxt : BitVec 32 := 0x40000000#32

def fd : BitVec 32 := 0x20000000#32

def ld : BitVec 32 := 0x10000000#32

def Descriptor.arm (d : Descriptor) (txBuff totalSize : Nat) : Descriptor where
  desc0 := BitVec.ofNat 32 txBuff
  desc2 := d.desc2 &&& ~~~b1l ||| BitVec.ofNat 32 totalSize ||| ioc
  desc3 := (d.desc3 ||| fd) &&& ~~~ctxt ||| own ||| ld

-- The return statements of carbon_lwip_output in their order.
inductive Exit
  | notInitialized
  | notStarted
  | tooLong
  | mismatch
  | tailOwned
  | timeout
  | sent
  deriving DecidableEq

def Exit.err : Exit → Err
  | .sent => .ok
  | .notInitialized | .notStarted | .tooLong | .mismatch | .tailOwned | .timeout => .interface

-- `busyTx` is the state that HAL_ETH_Start gives the transmitter; `mutex` is what
-- was done with tx_ptk_mutex.
structure Driver where
  isInitialized : Bool
  busyTx : Bool
  txBuff : Nat
  memory : Nat → UInt8
  descriptors : Pointer → Descriptor
  tail : Pointer
  mutex : List MutexOp

def Driver.lock (s : Driver) (op : MutexOp) : Driver := { s with mutex := s.mutex ++ [op] }

-- The copy loop: whether it ran to the end of the chain, and the memory.
def gather (memory : Nat → UInt8) (currentBufPtr size totalSize : Nat) :
    List (List UInt8) → Bool × (Nat → UInt8)
  | [] => (true, memory)
  | q :: rest =>
      if totalSize ≤ size then (false, memory)
      else
        gather (Cells.write memory currentBufPtr q) (currentBufPtr + q.length)
          (uint32 (size + q.length)) totalSize rest

-- `acquired` tells how the wait for txPktSemaphore ends.
def carbonLwipOutput (s : Driver) (p : Chain) (acquired : Bool) : Exit × Driver :=
  if s.isInitialized = false then (.notInitialized, s)
  else
    let s := s.lock .wait
    if s.busyTx = false then (.notStarted, s.lock .release)
    else
      let totalSize := p.totLen.toNat
      if ethRxBufferSizeAligned < totalSize then (.tooLong, s.lock .release)
      else
        let (complete, memory) := gather s.memory s.txBuff 0 totalSize p.segments
        let s := { s with memory := memory }
        if complete = false then (.mismatch, s.lock .release)
        else
          let tailPointer := s.descriptors s.tail
          if tailPointer.desc3 &&& own = own then (.tailOwned, s.lock .release)
          else
            let s := { s with
              descriptors := Function.update s.descriptors s.tail (tailPointer.arm s.txBuff totalSize)
              tail := increaseTxPointer s.tail }
            if acquired then (.sent, s.lock .release) else (.timeout, s.lock .release)

def Started (s : Driver) : Prop := s.isInitialized = true ∧ s.busyTx = true

-- The chain is not rejected for its shape, its bytes are at the start of the
-- buffer, and a free tail descriptor goes to the DMA with their number.
structure Gathers (s : Driver) (p : Chain) (acquired : Bool) : Prop where
  accepted : (carbonLwipOutput s p acquired).1 ≠ .tooLong ∧
    (carbonLwipOutput s p acquired).1 ≠ .mismatch
  placed : Cells.read (carbonLwipOutput s p acquired).2.memory s.txBuff p.totLen.toNat =
    p.segments.flatten
  handed : (s.descriptors s.tail).desc3 &&& own ≠ own →
    ((carbonLwipOutput s p acquired).2.descriptors s.tail).desc0 = BitVec.ofNat 32 s.txBuff ∧
      ((carbonLwipOutput s p acquired).2.descriptors s.tail).desc2 &&& b1l =
        BitVec.ofNat 32 p.totLen.toNat ∧
      ((carbonLwipOutput s p acquired).2.descriptors s.tail).desc3 &&& own = own ∧
      (carbonLwipOutput s p acquired).2.tail = increaseTxPointer s.tail

variable {s : Driver} {p : Chain} {acquired : Bool}

theorem arm_length (d : Descriptor) (txBuff : Nat) {totalSize : Nat} (h : totalSize < 2 ^ 14) :
    (d.arm txBuff totalSize).desc2 &&& b1l = BitVec.ofNat 32 totalSize := by
  apply BitVec.eq_of_getLsbD_eq
  intro i hi
  simp only [Descriptor.arm, BitVec.getLsbD_and, BitVec.getLsbD_or, BitVec.getLsbD_not]
  by_cases hlow : i < 14
  · have hmask : b1l.getLsbD i = true := by
      revert hlow
      revert i
      decide
    have hioc : ioc.getLsbD i = false := by
      revert hlow
      revert i
      decide
    simp [hmask, hioc]
  · have hmask : b1l.getLsbD i = false := by
      revert hlow
      revert i
      decide
    have hhigh : totalSize.testBit i = false := Nat.testBit_lt_two_pow
      (Nat.lt_of_lt_of_le h (Nat.pow_le_pow_right (by decide) (by omega)))
    simp [hmask, hhigh, BitVec.getLsbD_ofNat]

theorem arm_own (d : Descriptor) (txBuff totalSize : Nat) :
    (d.arm txBuff totalSize).desc3 &&& own = own := by
  apply BitVec.eq_of_getLsbD_eq
  intro i hi
  simp only [Descriptor.arm, BitVec.getLsbD_and, BitVec.getLsbD_or]
  cases own.getLsbD i <;> simp

-- With the rest of the total still to come, only an empty last segment stops
-- the loop, and what it has not copied then is empty.
theorem gather_complete_iff (memory : Nat → UInt8) (current : Nat) {size totalSize : Nat}
    (segments : List (List UInt8)) (hne : segments ≠ [])
    (hsum : totalSize = size + segments.flatten.length) (hlt : totalSize < 2 ^ 32) :
    (gather memory current size totalSize segments).1 = true ↔ segments.getLast hne ≠ [] := by
  induction segments generalizing memory current size with
  | nil => exact absurd rfl hne
  | cons q rest ih =>
      rw [List.flatten_cons, List.length_append] at hsum
      unfold gather
      cases rest with
      | nil =>
          rw [List.getLast_singleton, List.flatten_nil, List.length_nil] at *
          split
          · rename_i hstop
            have hnil : q = [] := List.eq_nil_of_length_eq_zero (by omega)
            simp [hnil]
          · rename_i hgo
            have hcons : q ≠ [] := by
              rintro rfl
              rw [List.length_nil] at hsum
              omega
            simp [gather, hcons]
      | cons next rest =>
          rw [List.getLast_cons (List.cons_ne_nil _ _)]
          have hsize : uint32 (size + q.length) = size + q.length := uint32_of_lt (by omega)
          split
          · rename_i hstop
            have hall : (next :: rest).flatten = [] := List.eq_nil_of_length_eq_zero (by omega)
            have hlast := List.flatten_eq_nil_iff.mp hall _ (List.getLast_mem (List.cons_ne_nil next rest))
            simp [hlast]
          · exact ih _ _ (List.cons_ne_nil _ _) (by omega)

theorem gather_memory (memory : Nat → UInt8) (current : Nat) {size totalSize : Nat}
    (segments : List (List UInt8)) (hsum : totalSize = size + segments.flatten.length)
    (hlt : totalSize < 2 ^ 32) :
    (gather memory current size totalSize segments).2 =
      Cells.write memory current segments.flatten := by
  induction segments generalizing memory current size with
  | nil => rw [List.flatten_nil, Cells.write_nil]; rfl
  | cons q rest ih =>
      have hlength : (q :: rest).flatten.length = q.length + rest.flatten.length := by
        rw [List.flatten_cons, List.length_append]
      have hsize : uint32 (size + q.length) = size + q.length := uint32_of_lt (by omega)
      unfold gather
      split
      · have hnil : (q :: rest).flatten = [] := List.eq_nil_of_length_eq_zero (by omega)
        rw [hnil, Cells.write_nil]
      · rw [ih _ _ (by omega), List.flatten_cons, Cells.write_append]

-- Every return after the wait for the mutex releases it once.
theorem mutex_released : (carbonLwipOutput s p acquired).2.mutex =
    s.mutex ++ if s.isInitialized then [.wait, .release] else [] := by
  unfold carbonLwipOutput
  cases hinit : s.isInitialized with
  | false => simp
  | true =>
      simp only [Bool.true_eq_false, if_false, if_true]
      split
      · simp [Driver.lock]
      split
      · simp [Driver.lock]
      split
      · simp [Driver.lock]
      split
      · simp [Driver.lock]
      split <;> simp [Driver.lock]

-- What is left of the function for a chain that fits.
theorem output_eq (hstarted : Started s) (hp : p.WellFormed) :
    carbonLwipOutput s p acquired =
      let t := { s.lock .wait with memory := Cells.write s.memory s.txBuff p.segments.flatten }
      if p.last = [] then (.mismatch, t.lock .release)
      else if (s.descriptors s.tail).desc3 &&& own = own then (.tailOwned, t.lock .release)
      else
        let u := { t with
          descriptors := Function.update s.descriptors s.tail
            ((s.descriptors s.tail).arm s.txBuff p.totLen.toNat)
          tail := increaseTxPointer s.tail }
        (if acquired then .sent else .timeout, u.lock .release) := by
  have hlt := p.totLen.toNat_lt
  have hsum : p.totLen.toNat = 0 + p.segments.flatten.length := by rw [hp.total, Nat.zero_add]
  have hmemory := gather_memory s.memory s.txBuff p.segments hsum (by omega)
  have hcomplete := gather_complete_iff s.memory s.txBuff p.segments (List.cons_ne_nil _ _) hsum
    (by omega)
  have hfits := Nat.not_lt.mpr hp.fits
  unfold carbonLwipOutput
  simp only [hstarted.1, Bool.true_eq_false, if_false, Driver.lock, hstarted.2, hfits, hmemory]
  by_cases hlast : p.last = []
  · have hfalse : (gather s.memory s.txBuff 0 p.totLen.toNat p.segments).1 = false := by
      rw [Bool.eq_false_iff]
      exact fun h => hcomplete.mp h hlast
    rw [if_pos hfalse, if_pos hlast]
  · have htrue : (gather s.memory s.txBuff 0 p.totLen.toNat p.segments).1 = true :=
      hcomplete.mpr hlast
    rw [if_neg (by rw [htrue]; decide), if_neg hlast]
    split
    · rfl
    · cases acquired <;> rfl

theorem memory_eq (hstarted : Started s) (hp : p.WellFormed) :
    (carbonLwipOutput s p acquired).2.memory =
      Cells.write s.memory s.txBuff p.segments.flatten := by
  rw [output_eq hstarted hp]
  dsimp only
  split
  · rfl
  split <;> rfl

theorem gathers_iff (hstarted : Started s) (hp : p.WellFormed) :
    Gathers s p acquired ↔ p.last ≠ [] := by
  constructor
  · intro h hlast
    refine h.accepted.2 ?_
    rw [output_eq hstarted hp]
    dsimp only
    rw [if_pos hlast]
  · intro hlast
    refine ⟨?_, ?_, ?_⟩
    · rw [output_eq hstarted hp]
      dsimp only
      rw [if_neg hlast]
      split
      · exact ⟨nofun, nofun⟩
      · cases acquired <;> exact ⟨nofun, nofun⟩
    · rw [memory_eq hstarted hp, hp.total]
      exact Cells.read_write
    · intro hfree
      have hlength : p.totLen.toNat < 2 ^ 14 := Nat.lt_of_le_of_lt hp.fits (by decide)
      rw [output_eq hstarted hp]
      dsimp only
      rw [if_neg hlast, if_neg hfree]
      simp only [Driver.lock, Function.update_self]
      exact ⟨rfl, arm_length _ _ hlength, arm_own _ _ _, trivial⟩

-- A chain that fits is gathered if and only if its last segment has a byte; no
-- such chain is copied past the buffer, and no chain leaves the mutex taken.
theorem output_gathers_iff (s : Driver) (p : Chain) (acquired : Bool) :
    (Started s → p.WellFormed →
      (Gathers s p acquired ↔ p.last ≠ []) ∧
        ∀ address, address < s.txBuff ∨ s.txBuff + ethRxBufferSizeAligned ≤ address →
          (carbonLwipOutput s p acquired).2.memory address = s.memory address) ∧
    (carbonLwipOutput s p acquired).2.mutex =
      s.mutex ++ if s.isInitialized then [.wait, .release] else [] := by
  refine ⟨fun hstarted hp => ⟨gathers_iff hstarted hp, ?_⟩, mutex_released⟩
  intro address hout
  have hfits := hp.fits
  rw [memory_eq hstarted hp]
  exact Cells.write_outside (by rw [← hp.total]; omega)

-- A packet of three bytes whose chain ends with an empty pbuf.
theorem empty_tail_rejected :
    ¬∀ s p acquired, Started s → p.WellFormed → Gathers s p acquired := by
  intro h
  have hgathers := h ⟨true, true, 0x30000000, fun _ => 0, fun _ => ⟨0, 0, 0⟩, 0, []⟩
    ⟨3, [1, 2, 3], [[]]⟩ true ⟨rfl, rfl⟩ ⟨by decide, by decide⟩
  exact hgathers.accepted.2 (by decide)

-- Three bytes in two pbufs with an empty one between them.
theorem output_gathers_run :
    Gathers ⟨true, true, 0x30000000, fun _ => 0, fun _ => ⟨0, 0, 0⟩, 0, []⟩ ⟨3, [1, 2], [[], [3]]⟩ true :=
  ((output_gathers_iff _ _ _).1 ⟨rfl, rfl⟩ ⟨by decide, by decide⟩).1.mpr (by decide)

end Gather

end Carbon
