import Carbon.Word
import Carbon.Library.Sink
import Carbon.Library.Cells
import Carbon.Library.CString

namespace Carbon

namespace Printf

open CString (ascii text)

def maxPossibleBufferSize : Nat := 2 ^ 31 - 1

-- output_gadget_t. `sent` is what a non-null function has been given, in order;
-- a buffer is the memory from its pointer on.
structure OutputGadget where
  function : Option (List UInt8)
  buffer : Option (Nat → UInt8)
  pos : Nat
  maxChars : Nat

-- The comment on output_gadget_t demands that a gadget which keeps characters
-- has a function or a buffer; without one the write goes to a null pointer,
-- which is no memory of the model.
def putcharViaGadget (gadget : OutputGadget) (c : UInt8) : OutputGadget :=
  let writePos := gadget.pos
  let gadget := { gadget with pos := uint32 (gadget.pos + 1) }
  if writePos ≥ gadget.maxChars then
    gadget
  else
    match gadget.function with
    | some sent => { gadget with function := some (sent ++ [c]) }
    | none => { gadget with buffer := gadget.buffer.map fun buffer => Cells.write buffer writePos [c] }

def appendTerminationWithGadget (gadget : OutputGadget) : OutputGadget :=
  if gadget.function.isSome ∨ gadget.maxChars = 0 then
    gadget
  else
    let nullCharPos := if gadget.pos < gadget.maxChars then gadget.pos else gadget.maxChars - 1
    { gadget with buffer := gadget.buffer.map fun buffer => Cells.write buffer nullCharPos [0] }

def discardingGadget : OutputGadget := ⟨none, none, 0, 0⟩

def bufferGadget (buffer : Option (Nat → UInt8)) (bufferSize : Nat) : OutputGadget :=
  let usableBufferSize :=
    if bufferSize > maxPossibleBufferSize then maxPossibleBufferSize else bufferSize
  match buffer with
  | some buffer => { discardingGadget with buffer := some buffer, maxChars := usableBufferSize }
  | none => discardingGadget

def functionGadget : OutputGadget :=
  { discardingGadget with function := some [], maxChars := maxPossibleBufferSize }

-- The formatter sees of its gadget only how many characters it has put.
def gadgetSink : Sink OutputGadget UInt8 Nat where
  put := putcharViaGadget
  view := OutputGadget.pos
  next pos := uint32 (pos + 1)
  view_put gadget c := by
    unfold putcharViaGadget
    dsimp only
    split
    · rfl
    · split <;> rfl

def putChars (gadget : OutputGadget) (cs : List UInt8) : OutputGadget := gadgetSink.puts gadget cs

@[simp] theorem putChars_nil (gadget : OutputGadget) : putChars gadget [] = gadget := rfl

@[simp] theorem putChars_cons (gadget : OutputGadget) (c : UInt8) (cs : List UInt8) :
    putChars gadget (c :: cs) = putChars (putcharViaGadget gadget c) cs := rfl

theorem putChars_append (gadget : OutputGadget) (xs ys : List UInt8) :
    putChars gadget (xs ++ ys) = putChars (putChars gadget xs) ys := gadgetSink.puts_append gadget xs ys

@[simp] theorem putcharViaGadget_pos (gadget : OutputGadget) (c : UInt8) :
    (putcharViaGadget gadget c).pos = uint32 (gadget.pos + 1) := gadgetSink.view_put gadget c

-- Every character counts, also one that is dropped.
theorem putChars_pos {gadget : OutputGadget} (cs : List UInt8) (h : gadget.pos < 2 ^ 32) :
    (putChars gadget cs).pos = uint32 (gadget.pos + cs.length) := by
  induction cs generalizing gadget with
  | nil => exact (uint32_of_lt h).symm
  | cons c cs ih =>
      rw [putChars_cons, ih (by rw [putcharViaGadget_pos]; exact uint32_lt _), putcharViaGadget_pos,
        List.length_cons]
      unfold uint32
      omega

variable {gadget : OutputGadget} {cs : List UInt8}

theorem putcharViaGadget_full (hfull : gadget.maxChars ≤ gadget.pos) (c : UInt8) :
    putcharViaGadget gadget c = { gadget with pos := uint32 (gadget.pos + 1) } :=
  if_pos hfull

theorem putcharViaGadget_function {sent : List UInt8} (hfunction : gadget.function = some sent)
    (hroom : gadget.pos < gadget.maxChars) (c : UInt8) :
    putcharViaGadget gadget c =
      { gadget with function := some (sent ++ [c]), pos := uint32 (gadget.pos + 1) } := by
  simp only [putcharViaGadget, ge_iff_le, Nat.not_le_of_lt hroom, if_false, hfunction]

theorem putcharViaGadget_buffer {buffer : Nat → UInt8} (hfunction : gadget.function = none)
    (hbuffer : gadget.buffer = some buffer) (hroom : gadget.pos < gadget.maxChars) (c : UInt8) :
    putcharViaGadget gadget c = { gadget with
      buffer := some (Cells.write buffer gadget.pos [c]), pos := uint32 (gadget.pos + 1) } := by
  simp only [putcharViaGadget, ge_iff_le, Nat.not_le_of_lt hroom, if_false, hfunction, hbuffer,
    Option.map_some]

-- Past the limit the characters are only counted.
theorem putChars_full (hfull : gadget.maxChars ≤ gadget.pos) (hpos : gadget.pos + cs.length < 2 ^ 32) :
    putChars gadget cs = { gadget with pos := gadget.pos + cs.length } := by
  induction cs generalizing gadget with
  | nil => rfl
  | cons c cs ih =>
      rw [List.length_cons] at hpos ⊢
      have hnext : uint32 (gadget.pos + 1) = gadget.pos + 1 := uint32_of_lt (by omega)
      rw [putChars_cons, putcharViaGadget_full hfull, hnext, ih (by simp only; omega) (by simp only; omega)]
      simp only [OutputGadget.mk.injEq, true_and, and_true]
      omega

-- A function gets the characters up to the limit, in order.
theorem putChars_function {sent : List UInt8} (hfunction : gadget.function = some sent)
    (hpos : gadget.pos + cs.length < 2 ^ 32) :
    putChars gadget cs = { gadget with
      function := some (sent ++ cs.take (gadget.maxChars - gadget.pos)), pos := gadget.pos + cs.length } := by
  induction cs generalizing gadget sent with
  | nil =>
      rw [List.take_nil, List.append_nil, ← hfunction]
      rfl
  | cons c cs ih =>
      by_cases hroom : gadget.pos < gadget.maxChars
      · rw [List.length_cons] at hpos ⊢
        have hnext : uint32 (gadget.pos + 1) = gadget.pos + 1 := uint32_of_lt (by omega)
        rw [putChars_cons, putcharViaGadget_function hfunction hroom, hnext,
          ih rfl (by simp only; omega), show gadget.maxChars - gadget.pos
            = gadget.maxChars - (gadget.pos + 1) + 1 by omega, List.take_succ_cons, List.append_assoc]
        simp only [List.singleton_append, OutputGadget.mk.injEq, true_and, and_true]
        omega
      · rw [putChars_full (by omega) hpos, Nat.sub_eq_zero_of_le (by omega), List.take_zero,
          List.append_nil, ← hfunction]

-- A buffer gets them from the position on.
theorem putChars_buffer {buffer : Nat → UInt8} (hfunction : gadget.function = none)
    (hbuffer : gadget.buffer = some buffer) (hpos : gadget.pos + cs.length < 2 ^ 32) :
    putChars gadget cs = { gadget with
      buffer := some (Cells.write buffer gadget.pos (cs.take (gadget.maxChars - gadget.pos)))
      pos := gadget.pos + cs.length } := by
  induction cs generalizing gadget buffer with
  | nil =>
      rw [List.take_nil, Cells.write_nil, ← hbuffer]
      rfl
  | cons c cs ih =>
      by_cases hroom : gadget.pos < gadget.maxChars
      · rw [List.length_cons] at hpos ⊢
        have hnext : uint32 (gadget.pos + 1) = gadget.pos + 1 := uint32_of_lt (by omega)
        rw [putChars_cons, putcharViaGadget_buffer hfunction hbuffer hroom, hnext,
          @ih { gadget with buffer := some (Cells.write buffer gadget.pos [c]), pos := gadget.pos + 1 }
            _ hfunction rfl (by simp only; omega),
          show gadget.maxChars - gadget.pos = gadget.maxChars - (gadget.pos + 1) + 1 by omega,
          List.take_succ_cons, ← List.singleton_append (l := cs.take _), Cells.write_append]
        simp only [List.length_singleton, OutputGadget.mk.injEq, true_and, and_true]
        omega
      · rw [putChars_full (by omega) hpos, Nat.sub_eq_zero_of_le (by omega), List.take_zero,
          Cells.write_nil, ← hbuffer]

end Printf

end Carbon
