import Carbon.Library.Cells
import Carbon.Word
import Mathlib.Data.List.TakeDrop

namespace Carbon

namespace BootScript

inductive FResult
  | ok
  | error (code : Nat)
  deriving DecidableEq

-- How many bytes an f_read lets through at most, or its error and what it had
-- copied by then.
inductive ReadResult
  | ok (limit : Nat)
  | error (code : Nat) (copied : List UInt8)

def ReadResult.limit : ReadResult → Nat
  | .ok limit => limit
  | .error _ _ => 0

def ReadResult.isOk : ReadResult → Bool
  | .ok _ => true
  | .error _ _ => false

-- pvPortMalloc at the call: NULL, as for every request of nothing, or a block of
-- the address space.
structure Heap where
  pvPortMalloc : Nat → Option Nat
  sound : ∀ size p, pvPortMalloc size = some p → 0 < size ∧ 0 < p ∧ p + size ≤ 2 ^ 32

-- `file` is what the open file holds. A failed f_stat leaves `stack` in the size.
structure Input where
  memory : Nat → UInt8
  heap : Heap
  file : List UInt8
  fOpen : FResult
  fStat : Option UInt32
  stack : UInt32
  reads : Nat → ReadResult

def Input.fsize (x : Input) : Nat := (x.fStat.getD x.stack).toNat

structure Block where
  address : Nat
  size : Nat

-- The block the buffer has while it is allocated, the pointer to it (0 is NULL),
-- and whether something was written outside the block.
structure State where
  memory : Nat → UInt8
  block : Option Block
  readBuffer : Nat
  stray : Bool

def State.covers (s : State) (address length : Nat) : Bool :=
  match s.block with
  | some block => decide (block.address ≤ address ∧ address + length ≤ block.address + block.size)
  | none => false

def store (s : State) (address : Nat) (bytes : List UInt8) : State :=
  { s with
    memory := Cells.write s.memory address bytes
    stray := s.stray || (!bytes.isEmpty && !s.covers address bytes.length) }

def vPortFree (s : State) : State := { s with block := none }

-- The bytes that are copied to the buffer. Without an error they are the next ones
-- of the file, and byte_read is their number.
def fRead (file : List UInt8) (fptr btr : Nat) : ReadResult → FResult × List UInt8
  | .ok limit => (.ok, (file.drop fptr).take (min limit btr))
  | .error code copied => (.error code, copied.take btr)

-- The fuel bounds the calls of f_read.
def readLoop (x : Input) (fuel i : Nat) (s : State) (head byteToRead fptr : Nat) : Option State :=
  if byteToRead = 0 then some s
  else
    match fuel with
    | 0 => none
    | fuel + 1 =>
        match fRead x.file fptr byteToRead (x.reads i) with
        | (.error _, bytes) => some { vPortFree (store s head bytes) with readBuffer := 0 }
        | (.ok, bytes) =>
            readLoop x fuel (i + 1) (store s head bytes) (uint32 (head + bytes.length))
              (byteToRead - bytes.length) (fptr + bytes.length)

-- Up to the creation of the task, which gets the pointer of the last state.
def startMicropython (x : Input) (fuel : Nat) : Option State :=
  let s : State := ⟨x.memory, none, 0, false⟩
  match x.fOpen with
  | .error _ => some s
  | .ok =>
      let size := uint32 (x.fsize + 1)
      match x.heap.pvPortMalloc size with
      | none => some s
      | some p =>
          (readLoop x fuel 0 { s with block := some ⟨p, size⟩, readBuffer := p } p x.fsize 0).map fun s =>
            store s (uint32 (s.readBuffer + x.fsize)) [0]

-- Nothing is written outside the block, and the task gets NULL or a block with
-- the bytes of the file and a zero.
structure Loaded (x : Input) (s : State) : Prop where
  inside : s.stray = false
  handed : s.readBuffer = 0 ∨ ∃ size, s.block = some ⟨s.readBuffer, size⟩ ∧
    Cells.read s.memory s.readBuffer size = x.file ++ [0]

def Safe (x : Input) : Prop := ∃ fuel s, startMicropython x fuel = some s ∧ Loaded x s

-- The first k calls of f_read from the i-th on are without an error and let at
-- least `count` bytes through.
def Delivers (x : Input) (i k count : Nat) : Prop :=
  (∀ j < k, (x.reads (i + j)).isOk = true) ∧
    count ≤ ((List.range k).map fun j => (x.reads (i + j)).limit).sum

-- There is nothing to load, or the size is the file's and all of it is read
-- before an error.
def Undisturbed (x : Input) : Prop :=
  x.fOpen ≠ .ok ∨ x.heap.pvPortMalloc (uint32 (x.fsize + 1)) = none ∨
    x.fsize = x.file.length ∧ ∃ k, Delivers x 0 k x.file.length

variable {x : Input} {s t : State} {fuel i k p done : Nat}

-- The first `done` bytes of the file are in the block.
structure Filling (x : Input) (p : Nat) (s : State) (done : Nat) : Prop where
  readBuffer : s.readBuffer = p
  block : s.block = some ⟨p, x.fsize + 1⟩
  stray : s.stray = false
  le_size : done ≤ x.fsize
  le_file : done ≤ x.file.length
  content : Cells.read s.memory p done = x.file.take done

theorem readLoop_done (head fptr : Nat) : readLoop x fuel i s head 0 fptr = some s := by
  unfold readLoop
  rw [if_pos rfl]

theorem readLoop_stop {head byteToRead fptr : Nat} (hleft : byteToRead ≠ 0) :
    readLoop x 0 i s head byteToRead fptr = none := by
  unfold readLoop
  rw [if_neg hleft]

theorem readLoop_error {head byteToRead fptr code : Nat} {copied : List UInt8} (hleft : byteToRead ≠ 0)
    (hread : x.reads i = .error code copied) :
    readLoop x (fuel + 1) i s head byteToRead fptr =
      some { vPortFree (store s head (copied.take byteToRead)) with readBuffer := 0 } := by
  rw [readLoop, if_neg hleft]
  simp only [hread, fRead]

theorem readLoop_ok {head byteToRead fptr limit : Nat} {bytes : List UInt8} (hleft : byteToRead ≠ 0)
    (hread : x.reads i = .ok limit) (hbytes : (x.file.drop fptr).take (min limit byteToRead) = bytes) :
    readLoop x (fuel + 1) i s head byteToRead fptr =
      readLoop x fuel (i + 1) (store s head bytes) (uint32 (head + bytes.length))
        (byteToRead - bytes.length) (fptr + bytes.length) := by
  subst hbytes
  rw [readLoop, if_neg hleft]
  simp only [hread, fRead]

theorem store_inside {block : Block} {address : Nat} {bytes : List UInt8} (hblock : s.block = some block)
    (hlow : block.address ≤ address) (hhigh : address + bytes.length ≤ block.address + block.size) :
    (store s address bytes).stray = s.stray := by
  have hcovers : s.covers address bytes.length = true := by
    unfold State.covers
    rw [hblock]
    exact decide_eq_true ⟨hlow, hhigh⟩
  unfold store
  rw [hcovers]
  simp

theorem store_freed {address : Nat} {byte : UInt8} (hblock : s.block = none) :
    (store s address [byte]).stray = true := by
  unfold store State.covers
  rw [hblock]
  simp

-- What one successful f_read adds.
theorem Filling.read (h : Filling x p s done) (limit : Nat) {bytes : List UInt8}
    (hbytes : (x.file.drop done).take (min limit (x.fsize - done)) = bytes) :
    Filling x p (store s (p + done) bytes) (done + bytes.length) := by
  have hlen : bytes.length = min (min limit (x.fsize - done)) (x.file.length - done) := by
    rw [← hbytes, List.length_take, List.length_drop]
  have hsize := h.le_size
  have hfile := h.le_file
  refine ⟨h.readBuffer, h.block, ?_, by omega, by omega, ?_⟩
  · rw [store_inside h.block (Nat.le_add_right p done) (by show p + done + _ ≤ p + (x.fsize + 1); omega)]
    exact h.stray
  · show Cells.read (Cells.write s.memory (p + done) bytes) p (done + bytes.length) = _
    rw [Cells.read_add, Cells.read_write, Cells.read_write_apart (.inr (Nat.le_refl _)), h.content,
      List.take_add]
    refine congrArg _ (hbytes.symm.trans (List.take_eq_take_iff.mpr ?_))
    rw [hlen, List.length_drop]
    omega

theorem Filling.pos_left (h : Filling x p s done) (hleft : x.fsize - done = 0) : done = x.fsize :=
  Nat.le_antisymm h.le_size (Nat.le_of_sub_eq_zero hleft)

theorem delivers_succ_iff {count : Nat} :
    Delivers x i (k + 1) count ↔ ∃ limit, x.reads i = .ok limit ∧ Delivers x (i + 1) k (count - limit) := by
  have hshift : ∀ j, x.reads (i + 1 + j) = x.reads (i + (j + 1)) := fun j => by
    rw [Nat.add_right_comm, Nat.add_assoc]
  unfold Delivers
  rw [List.range_succ_eq_map, List.map_cons, List.sum_cons, List.map_map]
  simp only [hshift, Function.comp_def, Nat.add_zero]
  constructor
  · rintro ⟨hok, hcount⟩
    cases hread : x.reads i with
    | error code copied =>
        have hfirst := hok 0 (Nat.succ_pos k)
        rw [Nat.add_zero, hread] at hfirst
        cases hfirst
    | ok limit =>
        rw [hread] at hcount
        exact ⟨limit, rfl, fun j hj => hok (j + 1) (Nat.succ_lt_succ hj), Nat.sub_le_iff_le_add'.mpr hcount⟩
  · rintro ⟨limit, hread, hok, hcount⟩
    refine ⟨?_, ?_⟩
    · intro j hj
      cases j with
      | zero => rw [Nat.add_zero, hread]; rfl
      | succ j => exact hok j (Nat.lt_of_succ_lt_succ hj)
    · rw [hread]
      exact Nat.sub_le_iff_le_add'.mp hcount

theorem Delivers.mono {few many : Nat} (h : Delivers x i k many) (hle : few ≤ many) : Delivers x i k few :=
  ⟨h.1, Nat.le_trans hle h.2⟩

theorem delivers_zero : Delivers x i 0 0 := ⟨fun _ hj => absurd hj (Nat.not_lt_zero _), Nat.zero_le _⟩

theorem uint32_head {bytes : List UInt8} (hspace : p + (x.fsize + 1) ≤ 2 ^ 32)
    (h : Filling x p t (done + bytes.length)) : uint32 (p + done + bytes.length) = p + (done + bytes.length) := by
  have := h.le_size
  rw [uint32_of_lt (by omega), Nat.add_assoc]

-- The loop ends with an error and without the block, or with the block full.
theorem readLoop_some (hspace : p + (x.fsize + 1) ≤ 2 ^ 32) (h : Filling x p s done)
    (hloop : readLoop x fuel i s (p + done) (x.fsize - done) done = some t) :
    (t.readBuffer = 0 ∧ t.block = none) ∨
      (Filling x p t x.fsize ∧ ∃ k, Delivers x i k (x.fsize - done)) := by
  induction fuel generalizing i s done with
  | zero =>
      by_cases hleft : x.fsize - done = 0
      · rw [hleft, readLoop_done] at hloop
        cases hloop
        rw [hleft]
        exact .inr ⟨h.pos_left hleft ▸ h, 0, delivers_zero⟩
      · rw [readLoop_stop hleft] at hloop
        cases hloop
  | succ fuel ih =>
      by_cases hleft : x.fsize - done = 0
      · rw [hleft, readLoop_done] at hloop
        cases hloop
        rw [hleft]
        exact .inr ⟨h.pos_left hleft ▸ h, 0, delivers_zero⟩
      · cases hread : x.reads i with
        | error code copied =>
            rw [readLoop_error hleft hread] at hloop
            cases hloop
            exact .inl ⟨rfl, rfl⟩
        | ok limit =>
            obtain ⟨bytes, hbytes⟩ : ∃ bytes, (x.file.drop done).take (min limit (x.fsize - done)) = bytes :=
              ⟨_, rfl⟩
            have hnext := h.read limit hbytes
            rw [readLoop_ok hleft hread hbytes, uint32_head hspace hnext, Nat.sub_sub] at hloop
            rcases ih hnext hloop with herror | ⟨hfull, k, hk⟩
            · exact .inl herror
            · have hlen : bytes.length ≤ limit := by
                rw [← hbytes, List.length_take]
                omega
              exact .inr ⟨hfull, k + 1, delivers_succ_iff.mpr ⟨limit, hread, hk.mono (by omega)⟩⟩

-- Enough calls without an error fill the block with a file of its size.
theorem readLoop_full (hspace : p + (x.fsize + 1) ≤ 2 ^ 32) (hsize : x.fsize = x.file.length)
    (h : Filling x p s done) (hreads : Delivers x i k (x.fsize - done)) :
    ∃ t, readLoop x k i s (p + done) (x.fsize - done) done = some t ∧ Filling x p t x.fsize := by
  induction k generalizing i s done with
  | zero =>
      have hleft : x.fsize - done = 0 := Nat.le_zero.mp hreads.2
      rw [hleft, readLoop_done]
      exact ⟨s, rfl, h.pos_left hleft ▸ h⟩
  | succ k ih =>
      by_cases hleft : x.fsize - done = 0
      · rw [hleft, readLoop_done]
        exact ⟨s, rfl, h.pos_left hleft ▸ h⟩
      · obtain ⟨limit, hread, hreads⟩ := delivers_succ_iff.mp hreads
        obtain ⟨bytes, hbytes⟩ : ∃ bytes, (x.file.drop done).take (min limit (x.fsize - done)) = bytes :=
          ⟨_, rfl⟩
        have hnext := h.read limit hbytes
        have hlen : bytes.length = min limit (x.fsize - done) := by
          rw [← hbytes, List.length_take, List.length_drop, ← hsize]
          omega
        rw [readLoop_ok hleft hread hbytes, uint32_head hspace hnext, Nat.sub_sub]
        exact ih hnext (hreads.mono (by omega))

-- The terminator goes to the last byte of the block.
theorem Filling.terminate (hspace : p + (x.fsize + 1) ≤ 2 ^ 32) (h : Filling x p t x.fsize) :
    (store t (uint32 (t.readBuffer + x.fsize)) [0]).stray = false ∧
      Cells.read (store t (uint32 (t.readBuffer + x.fsize)) [0]).memory p (x.fsize + 1) =
        x.file.take x.fsize ++ [0] := by
  have haddress : uint32 (t.readBuffer + x.fsize) = p + x.fsize := by
    rw [h.readBuffer, uint32_of_lt (by omega)]
  rw [haddress]
  constructor
  · rw [store_inside h.block (Nat.le_add_right p x.fsize) (Nat.le_refl _)]
    exact h.stray
  · show Cells.read (Cells.write t.memory (p + x.fsize) [0]) p (x.fsize + 1) = _
    rw [Cells.read_add, Cells.read_write_apart (.inr (Nat.le_refl _)), h.content,
      show Cells.read (Cells.write t.memory (p + x.fsize) [0]) (p + x.fsize) 1 = [0] from Cells.read_write]

theorem Input.fsize_lt (x : Input) : x.fsize < 2 ^ 32 := (x.fStat.getD x.stack).toNat_lt

-- A request that wraps is one of nothing, and gets nothing.
theorem size_of_alloc (halloc : x.heap.pvPortMalloc (uint32 (x.fsize + 1)) = some p) :
    uint32 (x.fsize + 1) = x.fsize + 1 ∧ 0 < p ∧ p + (x.fsize + 1) ≤ 2 ^ 32 := by
  obtain ⟨hpos, hp, hspace⟩ := x.heap.sound _ _ halloc
  have hsize : uint32 (x.fsize + 1) = x.fsize + 1 := by
    have hlt := x.fsize_lt
    unfold uint32 at hpos ⊢
    omega
  rw [hsize] at hspace
  exact ⟨hsize, hp, hspace⟩

theorem start_filling (p : Nat) (x : Input) : Filling x p ⟨x.memory, some ⟨p, x.fsize + 1⟩, p, false⟩ 0 :=
  ⟨rfl, rfl, rfl, Nat.zero_le _, Nat.zero_le _, by simp [Cells.read]⟩

theorem startMicropython_alloc (hopen : x.fOpen = .ok)
    (halloc : x.heap.pvPortMalloc (uint32 (x.fsize + 1)) = some p) :
    startMicropython x fuel =
      (readLoop x fuel 0 ⟨x.memory, some ⟨p, x.fsize + 1⟩, p, false⟩ p x.fsize 0).map fun s =>
        store s (uint32 (s.readBuffer + x.fsize)) [0] := by
  unfold startMicropython
  rw [hopen]
  dsimp only
  rw [halloc, (size_of_alloc halloc).1]

-- With a block the outcome depends on the loop alone.
theorem safe_alloc_iff (hopen : x.fOpen = .ok)
    (halloc : x.heap.pvPortMalloc (uint32 (x.fsize + 1)) = some p) :
    Safe x ↔ x.fsize = x.file.length ∧ ∃ k, Delivers x 0 k x.file.length := by
  obtain ⟨_, hp, hspace⟩ := size_of_alloc halloc
  have hstart := start_filling p x
  constructor
  · rintro ⟨fuel, u, hu, hloaded⟩
    rw [startMicropython_alloc hopen halloc] at hu
    obtain ⟨t, hloop, rfl⟩ := Option.map_eq_some_iff.mp hu
    rcases readLoop_some hspace hstart hloop with ⟨hnull, hfreed⟩ | ⟨hfull, k, hk⟩
    · have hstray := hloaded.inside
      rw [store_freed hfreed] at hstray
      cases hstray
    · rcases hloaded.handed with hnull | ⟨size, hblock, hcontent⟩
      · exact absurd (hfull.readBuffer.symm.trans hnull) (Nat.ne_of_gt hp)
      · cases hfull.block.symm.trans hblock
        have hcontent := (hfull.terminate hspace).2.symm.trans hcontent
        have hall : x.file.take x.fsize = x.file := List.append_cancel_right hcontent
        have hsize : x.fsize = x.file.length :=
          Nat.le_antisymm hfull.le_file ((List.take_eq_self_iff x.file).mp hall)
        exact ⟨hsize, k, by rw [← hsize]; exact hk⟩
  · rintro ⟨hsize, k, hk⟩
    obtain ⟨t, hloop, hfull⟩ := readLoop_full hspace hsize hstart (by rw [Nat.sub_zero, hsize]; exact hk)
    obtain ⟨hinside, hcontent⟩ := hfull.terminate hspace
    refine ⟨k, _, ?_, hinside, .inr ⟨x.fsize + 1, ?_, ?_⟩⟩
    · rw [startMicropython_alloc hopen halloc]
      exact Option.map_eq_some_iff.mpr ⟨t, hloop, rfl⟩
    · show t.block = some ⟨t.readBuffer, x.fsize + 1⟩
      rw [hfull.block, hfull.readBuffer]
    · have hpointer : (store t (uint32 (t.readBuffer + x.fsize)) [0]).readBuffer = p := hfull.readBuffer
      rw [hpointer, hcontent, hsize, List.take_length]

theorem safe_of_startMicropython (h : startMicropython x 0 = some ⟨x.memory, none, 0, false⟩) : Safe x :=
  ⟨0, _, h, rfl, .inl rfl⟩

-- The script is loaded safely exactly if there is nothing to load, or the size
-- that was asked for is the file's and its bytes are all read before an error.
theorem script_loaded_iff (x : Input) : Safe x ↔ Undisturbed x := by
  cases hopen : x.fOpen with
  | error code =>
      refine iff_of_true (safe_of_startMicropython ?_) (.inl (by rw [hopen]; nofun))
      unfold startMicropython
      rw [hopen]
  | ok =>
      cases halloc : x.heap.pvPortMalloc (uint32 (x.fsize + 1)) with
      | none =>
          refine iff_of_true (safe_of_startMicropython ?_) (.inr (.inl halloc))
          unfold startMicropython
          rw [hopen]
          dsimp only
          rw [halloc]
      | some p =>
          rw [safe_alloc_iff hopen halloc]
          unfold Undisturbed
          rw [hopen, halloc]
          simp

-- A file of three bytes whose first f_read fails: the terminator goes to address
-- three.
theorem read_error_writes_at_null : ¬∀ x, Safe x := by
  intro h
  let heap : Heap := ⟨fun size => if 0 < size ∧ size ≤ 4096 then some 4096 else none, by
    intro size p hp
    obtain ⟨hsize, hp⟩ := Option.ite_none_right_eq_some.mp hp
    cases hp
    exact ⟨hsize.1, by decide, Nat.le_trans (Nat.add_le_add_left hsize.2 4096) (by decide)⟩⟩
  have hsafe := h ⟨fun _ => 0, heap, [1, 2, 3], .ok, some 3, 0, fun _ => .error 1 []⟩
  obtain ⟨_, k, hok, hcount⟩ := (safe_alloc_iff (p := 4096) rfl rfl).mp hsafe
  cases k with
  | zero => exact absurd hcount (by decide)
  | succ k => cases hok 0 (Nat.succ_pos k)

end BootScript

end Carbon
