import Carbon.Library.Cells
import Carbon.SdCard.Transfer
import Carbon.Word

namespace Carbon

namespace SdCard

namespace Disk

open Transfer (BspError)

def blockSize : Nat := 512

-- SD_TIMEOUT
def sdTimeout : Nat := 30 * 1000

inductive DResult
  | ok
  | error
  deriving DecidableEq

-- The tick that the loop condition reads, and whether the card state read after
-- it is SD_TRANSFER_OK.
structure Poll where
  tick : Nat
  transferOk : Bool

-- A transfer has taken place, or is an error with whatever had arrived of it.
inductive Outcome
  | done
  | failed (arrived : List UInt8)

-- The clock and the card during a call: the first tick, the polls, and the
-- outcomes of the transfers in their order.
structure Card where
  timer : Nat
  polls : List Poll
  outcome : Nat → Outcome

-- The bytes of the address space and of the card. readBuf and writeBuf are static
-- and aligned, so no buffer of a caller overlaps them.
structure State where
  memory : Nat → UInt8
  disk : Nat → UInt8
  readBuf : Nat → UInt8
  writeBuf : Nat → UInt8

-- Nothing is returned while the loop is still polling.
def sdCheckStatusWithTimeout (timeout timer : Nat) : List Poll → Option Int
  | [] => none
  | poll :: rest =>
      if uint32Sub poll.tick timer < timeout then
        if poll.transferOk then some 0 else sdCheckStatusWithTimeout timeout timer rest
      else some (-1)

-- What a transfer of whole blocks between the card and memory leaves in its
-- destination, and its status.
def transferBlocks (outcome : Outcome) (src : Nat → UInt8) (srcStart : Nat) (dst : Nat → UInt8)
    (dstStart blocksNbr : Nat) : (Nat → UInt8) × BspError :=
  match outcome with
  | .done => (Cells.write dst dstStart (Cells.read src srcStart (blockSize * blocksNbr)), .none)
  | .failed arrived => (Cells.write dst dstStart (arrived.take (blockSize * blocksNbr)), .periphFailure)

def bspSdReadBlocksDMA (outcome : Outcome) (disk target : Nat → UInt8) (pData blockIdx blocksNbr : Nat) :
    (Nat → UInt8) × BspError :=
  transferBlocks outcome disk (blockSize * blockIdx) target pData blocksNbr

def bspSdWriteBlocksDMA (outcome : Outcome) (disk source : Nat → UInt8) (pData blockIdx blocksNbr : Nat) :
    (Nat → UInt8) × BspError :=
  transferBlocks outcome source pData disk (blockSize * blockIdx) blocksNbr

def BspError.result : BspError → DResult
  | .none => .ok
  | .wrongParam | .periphFailure => .error

def readBlocks (outcome : Outcome) (s : State) (buff sector count : Nat) : State × DResult :=
  let (memory, returnSD) := bspSdReadBlocksDMA outcome s.disk s.memory buff sector count
  ({ s with memory }, BspError.result returnSD)

def writeBlocks (outcome : Outcome) (s : State) (buff sector count : Nat) : State × DResult :=
  let (disk, returnSD) := bspSdWriteBlocksDMA outcome s.disk s.memory buff sector count
  ({ s with disk }, BspError.result returnSD)

-- A loop of the slow path when it is left.
structure Left where
  state : State
  i : Nat
  returnSD : BspError

-- Both loops have the sectors left to go as their first argument.
def readLoop (outcome : Nat → Outcome) : Nat → State → Nat → Nat → Nat → BspError → Left
  | 0, s, _, _, i, returnSD => ⟨s, i, returnSD⟩
  | n + 1, s, buff, sector, i, _ =>
      let (readBuf, returnSD) := bspSdReadBlocksDMA (outcome i) s.disk s.readBuf 0 sector 1
      let s := { s with readBuf }
      if returnSD = .none then
        let memory := Cells.write s.memory buff (Cells.read s.readBuf 0 blockSize)
        readLoop outcome n { s with memory } (uint32 (buff + blockSize)) (uint32 (sector + 1)) (i + 1) returnSD
      else ⟨s, i, returnSD⟩

def writeLoop (outcome : Nat → Outcome) : Nat → State → Nat → Nat → Nat → BspError → Left
  | 0, s, _, _, i, returnSD => ⟨s, i, returnSD⟩
  | n + 1, s, buff, sector, i, _ =>
      let writeBuf := Cells.write s.writeBuf 0 (Cells.read s.memory buff blockSize)
      let (disk, returnSD) := bspSdWriteBlocksDMA (outcome i) s.disk writeBuf 0 sector 1
      let s := { s with disk, writeBuf }
      if returnSD ≠ .none then ⟨s, i, returnSD⟩
      else writeLoop outcome n s (uint32 (buff + blockSize)) (uint32 (sector + 1)) (i + 1) returnSD

def Left.result (l : Left) (count : Nat) : State × DResult :=
  (l.state, if l.i = count ∧ l.returnSD = .none then .ok else .error)

def readSectors (outcome : Nat → Outcome) (s : State) (buff sector count : Nat) : State × DResult :=
  (readLoop outcome count s buff sector 0 .none).result count

def writeSectors (outcome : Nat → Outcome) (s : State) (buff sector count : Nat) : State × DResult :=
  (writeLoop outcome count s buff sector 0 .none).result count

def sdRead (c : Card) (s : State) (buff sector count : Nat) : Option (State × DResult) :=
  (sdCheckStatusWithTimeout sdTimeout c.timer c.polls).map fun status =>
    if status < 0 then (s, .error)
    else if buff &&& 0x1F = 0 then readBlocks (c.outcome 0) s buff sector count
    else readSectors c.outcome s buff sector count

def sdWrite (c : Card) (s : State) (buff sector count : Nat) : Option (State × DResult) :=
  (sdCheckStatusWithTimeout sdTimeout c.timer c.polls).map fun status =>
    if status < 0 then (s, .error)
    else if buff &&& 0x1F = 0 then writeBlocks (c.outcome 0) s buff sector count
    else writeSectors c.outcome s buff sector count

-- A poll found the card ready before the time was over.
def Ready (c : Card) : Prop :=
  ∃ before poll after, c.polls = before ++ poll :: after ∧ poll.transferOk = true ∧
    ∀ p ∈ before ++ [poll], uint32Sub p.tick c.timer < sdTimeout

-- The first m of the blocks are in the destination, and nothing outside the
-- blocks has changed.
structure Delivered (src : Nat → UInt8) (srcStart : Nat) (dst dst' : Nat → UInt8) (dstStart count m : Nat) :
    Prop where
  le : m ≤ count
  cells : ∃ rest, dst' = Cells.write dst dstStart (Cells.read src srcStart (blockSize * m) ++ rest) ∧
    rest.length ≤ blockSize * (count - m)

variable {src dst dst' : Nat → UInt8} {srcStart dstStart count m : Nat}

theorem Delivered.nothing : Delivered src srcStart dst dst dstStart count 0 :=
  ⟨Nat.zero_le _, [], by simp [Cells.read], Nat.zero_le _⟩

theorem Delivered.failed (arrived : List UInt8) :
    Delivered src srcStart dst (Cells.write dst dstStart (arrived.take (blockSize * count))) dstStart count 0 := by
  refine ⟨Nat.zero_le _, arrived.take (blockSize * count), by simp [Cells.read], ?_⟩
  exact List.length_take_le _ _

theorem Delivered.done :
    Delivered src srcStart dst (Cells.write dst dstStart (Cells.read src srcStart (blockSize * count)))
      dstStart count count :=
  ⟨Nat.le_refl _, [], by rw [List.append_nil], Nat.zero_le _⟩

-- One block, and then some of those after it.
theorem Delivered.cons (h : Delivered src (srcStart + blockSize)
      (Cells.write dst dstStart (Cells.read src srcStart blockSize)) dst' (dstStart + blockSize) count m) :
    Delivered src srcStart dst dst' dstStart (count + 1) (m + 1) := by
  obtain ⟨hle, rest, hcells, hrest⟩ := h
  refine ⟨Nat.succ_le_succ hle, rest, ?_, by rwa [Nat.add_sub_add_right]⟩
  rw [hcells, Nat.mul_add, Nat.mul_one, Nat.add_comm (blockSize * m), Cells.read_add, List.append_assoc,
    Cells.write_append (Cells.read src srcStart blockSize), Cells.length_read]

theorem Delivered.all (h : Delivered src srcStart dst dst' dstStart count count) :
    dst' = Cells.write dst dstStart (Cells.read src srcStart (blockSize * count)) := by
  obtain ⟨_, rest, hcells, hrest⟩ := h
  rw [Nat.sub_self, Nat.mul_zero] at hrest
  rw [hcells, List.eq_nil_of_length_eq_zero (Nat.le_zero.mp hrest), List.append_nil]

theorem Delivered.outside (h : Delivered src srcStart dst dst' dstStart count m) {a : Nat}
    (ha : a < dstStart ∨ dstStart + blockSize * count ≤ a) : dst' a = dst a := by
  obtain ⟨hle, rest, hcells, hrest⟩ := h
  have hsplit : blockSize * m + blockSize * (count - m) = blockSize * count := by
    rw [← Nat.mul_add, Nat.add_sub_cancel' hle]
  rw [hcells, Cells.write_outside]
  rw [List.length_append, Cells.length_read]
  omega

theorem read_write_block {cells : Nat → UInt8} {start : Nat} {bytes : List UInt8} (h : bytes.length = count) :
    Cells.read (Cells.write cells start bytes) start count = bytes := by
  subst h
  exact Cells.read_write

variable {outcome : Nat → Outcome} {s t : State} {n buff sector i : Nat} {e : BspError}

-- The pointer and the sector wrap only behind the last block.
theorem readLoop_uint32 (hbuff : buff + blockSize * n ≤ 2 ^ 32) (hsector : sector + n ≤ 2 ^ 32) :
    readLoop outcome n s (uint32 buff) (uint32 sector) i e = readLoop outcome n s buff sector i e := by
  cases n with
  | zero => rfl
  | succ n =>
      unfold blockSize at hbuff
      rw [uint32_of_lt (by omega : buff < 2 ^ 32), uint32_of_lt (by omega : sector < 2 ^ 32)]

theorem writeLoop_uint32 (hbuff : buff + blockSize * n ≤ 2 ^ 32) (hsector : sector + n ≤ 2 ^ 32) :
    writeLoop outcome n s (uint32 buff) (uint32 sector) i e = writeLoop outcome n s buff sector i e := by
  cases n with
  | zero => rfl
  | succ n =>
      unfold blockSize at hbuff
      rw [uint32_of_lt (by omega : buff < 2 ^ 32), uint32_of_lt (by omega : sector < 2 ^ 32)]

-- What a path has done of its `count` blocks: m of them are through, which are all
-- exactly if its transfers take place, and exactly then it reports no error.
structure Moved (src : Nat → UInt8) (srcStart : Nat) (dst dst' : Nat → UInt8) (dstStart count m : Nat)
    (transfersDone ok : Prop) : Prop where
  delivered : Delivered src srcStart dst dst' dstStart count m
  done_iff : m = count ↔ transfersDone
  ok_iff : ok ↔ m = count

theorem Moved.cons {transfersDone later ok : Prop} (hdone : transfersDone ↔ later)
    (h : Moved src (srcStart + blockSize) (Cells.write dst dstStart (Cells.read src srcStart blockSize)) dst'
      (dstStart + blockSize) count m later ok) :
    Moved src srcStart dst dst' dstStart (count + 1) (m + 1) transfersDone ok where
  delivered := h.delivered.cons
  done_iff := by rw [hdone, ← h.done_iff, Nat.add_right_cancel_iff]
  ok_iff := by rw [h.ok_iff, Nat.add_right_cancel_iff]

theorem done_succ_iff (h : outcome i = .done) :
    (∀ k < n + 1, outcome (i + k) = .done) ↔ ∀ k < n, outcome (i + 1 + k) = .done := by
  constructor
  · intro hall k hk
    rw [Nat.add_assoc, Nat.add_comm 1]
    exact hall (k + 1) (Nat.succ_lt_succ hk)
  · intro hlater k hk
    cases k with
    | zero => exact h
    | succ k =>
        rw [Nat.add_comm k, ← Nat.add_assoc]
        exact hlater k (Nat.lt_of_succ_lt_succ hk)

theorem not_done_succ {arrived : List UInt8} (h : outcome i = .failed arrived) :
    ¬∀ k < n + 1, outcome (i + k) = .done :=
  fun hall => nomatch h.symm.trans (hall 0 (Nat.succ_pos n))

theorem next_block_le {limit : Nat} (h : buff + blockSize * (n + 1) ≤ limit) :
    buff + blockSize + blockSize * n ≤ limit := by
  rw [Nat.add_assoc, Nat.add_comm blockSize, ← Nat.mul_succ]
  exact h

theorem readLoop_moved (outcome : Nat → Outcome) (n : Nat) (s : State) (buff sector i : Nat)
    (hbuff : buff + blockSize * n ≤ 2 ^ 32) (hsector : sector + n ≤ 2 ^ 32) :
    ∃ l m, readLoop outcome n s buff sector i .none = l ∧ l.i = i + m ∧ l.state.disk = s.disk ∧
      Moved s.disk (blockSize * sector) s.memory l.state.memory buff n m (∀ k < n, outcome (i + k) = .done)
        (l.returnSD = .none) := by
  induction n generalizing s buff sector i with
  | zero => exact ⟨⟨s, i, .none⟩, 0, rfl, rfl, rfl, .nothing, by simp, by simp⟩
  | succ n ih =>
      cases hout : outcome i with
      | failed arrived =>
          refine ⟨_, 0, rfl, ?_⟩
          simp only [readLoop, bspSdReadBlocksDMA, transferBlocks, hout, reduceCtorEq, if_false]
          exact ⟨rfl, trivial, .nothing, iff_of_false nofun (not_done_succ hout), by simp⟩
      | done =>
          have hnext := next_block_le hbuff
          have hblock : Cells.read (Cells.write s.readBuf 0 (Cells.read s.disk (blockSize * sector)
              (blockSize * 1))) 0 blockSize = Cells.read s.disk (blockSize * sector) (blockSize * 1) :=
            read_write_block Cells.length_read
          simp only [readLoop, bspSdReadBlocksDMA, transferBlocks, hout, if_true, hblock]
          rw [readLoop_uint32 hnext (by omega)]
          obtain ⟨l, m, hl, hi, hdisk, hmoved⟩ := ih _ (buff + blockSize) (sector + 1) (i + 1) hnext (by omega)
          refine ⟨l, m + 1, hl, by omega, hdisk, Moved.cons (done_succ_iff hout) ?_⟩
          exact hmoved

theorem writeLoop_moved (outcome : Nat → Outcome) (n : Nat) (s : State) (buff sector i : Nat)
    (hbuff : buff + blockSize * n ≤ 2 ^ 32) (hsector : sector + n ≤ 2 ^ 32) :
    ∃ l m, writeLoop outcome n s buff sector i .none = l ∧ l.i = i + m ∧ l.state.memory = s.memory ∧
      Moved s.memory buff s.disk l.state.disk (blockSize * sector) n m (∀ k < n, outcome (i + k) = .done)
        (l.returnSD = .none) := by
  induction n generalizing s buff sector i with
  | zero => exact ⟨⟨s, i, .none⟩, 0, rfl, rfl, rfl, .nothing, by simp, by simp⟩
  | succ n ih =>
      cases hout : outcome i with
      | failed arrived =>
          refine ⟨_, 0, rfl, ?_⟩
          simp only [writeLoop, bspSdWriteBlocksDMA, transferBlocks, hout, ne_eq, reduceCtorEq, not_false_eq_true,
            if_true]
          refine ⟨rfl, trivial, ?_, iff_of_false nofun (not_done_succ hout), by simp⟩
          -- what has arrived is within the sector, and so within the blocks
          refine ⟨Nat.zero_le _, arrived.take (blockSize * 1), by simp [Cells.read], ?_⟩
          exact Nat.le_trans (List.length_take_le _ _) (Nat.mul_le_mul_left _ (by omega))
      | done =>
          have hnext := next_block_le hbuff
          have hblock : Cells.read (Cells.write s.writeBuf 0 (Cells.read s.memory buff blockSize)) 0
              (blockSize * 1) = Cells.read s.memory buff blockSize := read_write_block Cells.length_read
          simp only [writeLoop, bspSdWriteBlocksDMA, transferBlocks, hout, ne_eq, not_true_eq_false, if_false,
            hblock]
          rw [writeLoop_uint32 hnext (by omega)]
          obtain ⟨l, m, hl, hi, hmemory, hmoved⟩ := ih _ (buff + blockSize) (sector + 1) (i + 1) hnext (by omega)
          refine ⟨l, m + 1, hl, by omega, hmemory, Moved.cons (done_succ_iff hout) ?_⟩
          exact hmoved

theorem readBlocks_moved (o : Outcome) (s : State) (buff sector : Nat) (hcount : 1 ≤ count) :
    ∃ t r m, readBlocks o s buff sector count = (t, r) ∧ t.disk = s.disk ∧
      Moved s.disk (blockSize * sector) s.memory t.memory buff count m (o = .done) (r = .ok) := by
  cases o with
  | done => exact ⟨_, _, count, rfl, rfl, .done, iff_of_true rfl rfl, iff_of_true rfl rfl⟩
  | failed arrived =>
      exact ⟨_, _, 0, rfl, rfl, .failed arrived, iff_of_false (by omega) nofun, iff_of_false nofun (by omega)⟩

theorem writeBlocks_moved (o : Outcome) (s : State) (buff sector : Nat) (hcount : 1 ≤ count) :
    ∃ t r m, writeBlocks o s buff sector count = (t, r) ∧ t.memory = s.memory ∧
      Moved s.memory buff s.disk t.disk (blockSize * sector) count m (o = .done) (r = .ok) := by
  cases o with
  | done => exact ⟨_, _, count, rfl, rfl, .done, iff_of_true rfl rfl, iff_of_true rfl rfl⟩
  | failed arrived =>
      exact ⟨_, _, 0, rfl, rfl, .failed arrived, iff_of_false (by omega) nofun, iff_of_false nofun (by omega)⟩

theorem result_ok_iff {l : Left} {m : Nat} (hi : l.i = 0 + m) (hok : l.returnSD = .none ↔ m = count) :
    (l.result count).2 = .ok ↔ m = count := by
  have hdone : l.i = count ∧ l.returnSD = .none ↔ m = count := by
    rw [hok, hi, Nat.zero_add, and_self]
  unfold Left.result
  split
  · rename_i h
    exact iff_of_true rfl (hdone.mp h)
  · rename_i h
    exact iff_of_false nofun fun hm => h (hdone.mpr hm)

theorem readSectors_moved (outcome : Nat → Outcome) (s : State) (hbuff : buff + blockSize * count ≤ 2 ^ 32)
    (hsector : sector + count ≤ 2 ^ 32) :
    ∃ t r m, readSectors outcome s buff sector count = (t, r) ∧ t.disk = s.disk ∧
      Moved s.disk (blockSize * sector) s.memory t.memory buff count m (∀ i < count, outcome i = .done)
        (r = .ok) := by
  obtain ⟨l, m, hl, hi, hdisk, hmoved⟩ := readLoop_moved outcome count s buff sector 0 hbuff hsector
  refine ⟨l.state, _, m, ?_, hdisk, hmoved.delivered, ?_, result_ok_iff hi hmoved.ok_iff⟩
  · unfold readSectors
    rw [hl]
    rfl
  · simpa only [Nat.zero_add] using hmoved.done_iff

theorem writeSectors_moved (outcome : Nat → Outcome) (s : State) (hbuff : buff + blockSize * count ≤ 2 ^ 32)
    (hsector : sector + count ≤ 2 ^ 32) :
    ∃ t r m, writeSectors outcome s buff sector count = (t, r) ∧ t.memory = s.memory ∧
      Moved s.memory buff s.disk t.disk (blockSize * sector) count m (∀ i < count, outcome i = .done)
        (r = .ok) := by
  obtain ⟨l, m, hl, hi, hmemory, hmoved⟩ :=
    writeLoop_moved outcome count s buff sector 0 hbuff hsector
  refine ⟨l.state, _, m, ?_, hmemory, hmoved.delivered, ?_, result_ok_iff hi hmoved.ok_iff⟩
  · unfold writeSectors
    rw [hl]
    rfl
  · simpa only [Nat.zero_add] using hmoved.done_iff

theorem checkStatus_cases {timeout timer : Nat} {polls : List Poll} {status : Int}
    (h : sdCheckStatusWithTimeout timeout timer polls = some status) : status = 0 ∨ status = -1 := by
  induction polls with
  | nil => cases h
  | cons poll rest ih =>
      unfold sdCheckStatusWithTimeout at h
      split at h
      · split at h
        · exact .inl (Option.some.inj h).symm
        · exact ih h
      · exact .inr (Option.some.inj h).symm

theorem checkStatus_eq_zero_iff (c : Card) :
    sdCheckStatusWithTimeout sdTimeout c.timer c.polls = some 0 ↔ Ready c := by
  obtain ⟨timer, polls, outcome⟩ := c
  constructor
  · intro h
    induction polls with
    | nil => cases h
    | cons poll rest ih =>
        simp only [sdCheckStatusWithTimeout] at h
        split at h
        · rename_i htick
          split at h
          · rename_i htransferOk
            refine ⟨[], poll, rest, rfl, htransferOk, ?_⟩
            rintro p (_ | ⟨_, ⟨⟩⟩)
            exact htick
          · obtain ⟨before, found, after, heq, hfound, hticks⟩ := ih h
            simp only at heq
            refine ⟨poll :: before, found, after, by rw [heq]; rfl, hfound, ?_⟩
            rintro p (_ | ⟨_, hp⟩)
            · exact htick
            · exact hticks p hp
        · cases h
  · rintro ⟨before, found, after, heq, hfound, hticks⟩
    simp only at heq
    subst heq
    induction before with
    | nil =>
        simp only [List.nil_append, sdCheckStatusWithTimeout]
        rw [if_pos (hticks found (by simp)), if_pos hfound]
    | cons poll before ih =>
        simp only [List.cons_append, sdCheckStatusWithTimeout]
        rw [if_pos (hticks poll (by simp))]
        split
        · rfl
        · exact ih fun p hp => hticks p (List.mem_cons_of_mem poll hp)

-- The transfers a call asks for: one of all blocks, or one for each block.
def calls (buff count : Nat) : Nat := if buff &&& 0x1F = 0 then 1 else count

-- A call that returns: success means that the card was ready and every transfer has
-- taken place, and then all blocks, in their order, are where they belong; nothing
-- else has changed in the destination.
structure Exact (c : Card) (res : DResult) (calls : Nat) (src : Nat → UInt8) (srcStart : Nat)
    (dst dst' : Nat → UInt8) (dstStart count : Nat) : Prop where
  ok_iff : res = .ok ↔ Ready c ∧ ∀ i < calls, c.outcome i = .done
  all : res = .ok → dst' = Cells.write dst dstStart (Cells.read src srcStart (blockSize * count))
  outside : ∀ a, a < dstStart ∨ dstStart + blockSize * count ≤ a → dst' a = dst a

theorem Moved.exact {c : Card} {res : DResult} {calls m : Nat} {transfersDone : Prop} (hready : Ready c)
    (hdone : transfersDone ↔ ∀ i < calls, c.outcome i = .done)
    (h : Moved src srcStart dst dst' dstStart count m transfersDone (res = .ok)) :
    Exact c res calls src srcStart dst dst' dstStart count where
  ok_iff := by
    rw [h.ok_iff, h.done_iff, hdone]
    exact (and_iff_right hready).symm
  all := by
    intro hres
    obtain rfl := h.ok_iff.mp hres
    exact h.delivered.all
  outside := fun _ => h.delivered.outside

theorem Exact.notReady {c : Card} {calls : Nat} (hnot : ¬Ready c) :
    Exact c .error calls src srcStart dst dst dstStart count :=
  ⟨iff_of_false nofun fun h => hnot h.1, nofun, fun _ _ => rfl⟩

theorem one_call_iff {c : Card} : c.outcome 0 = .done ↔ ∀ i < 1, c.outcome i = .done := by
  simp only [Nat.lt_one_iff, forall_eq]

-- Both entries give up without the card and go on to one of their paths with it.
theorem of_status {c : Card} {access : State × DResult} {r : DResult} {P : State → DResult → Prop}
    (hnot : ¬Ready c → P s .error) (hready : Ready c → P access.1 access.2)
    (h : (sdCheckStatusWithTimeout sdTimeout c.timer c.polls).map
      (fun status => if status < 0 then (s, .error) else access) = some (t, r)) : P t r := by
  obtain ⟨status, hstatus, h⟩ := Option.map_eq_some_iff.mp h
  rcases checkStatus_cases hstatus with rfl | rfl
  · rw [if_neg (by decide)] at h
    rw [h] at hready
    exact hready ((checkStatus_eq_zero_iff c).mp hstatus)
  · rw [if_pos (by decide)] at h
    cases h
    refine hnot fun hready => ?_
    cases hstatus.symm.trans ((checkStatus_eq_zero_iff c).mpr hready)

theorem sdRead_exact {c : Card} {r : DResult} (hcount : 1 ≤ count) (hbuff : buff + blockSize * count ≤ 2 ^ 32)
    (hsector : sector + count ≤ 2 ^ 32) (h : sdRead c s buff sector count = some (t, r)) :
    t.disk = s.disk ∧
      Exact c r (calls buff count) s.disk (blockSize * sector) s.memory t.memory buff count := by
  refine of_status (P := fun t r => t.disk = s.disk ∧ Exact c r (calls buff count) s.disk (blockSize * sector)
    s.memory t.memory buff count) (fun hnot => ⟨rfl, .notReady hnot⟩) (fun hready => ?_) h
  unfold calls
  split
  · obtain ⟨t, r, m, heq, hdisk, hmoved⟩ := readBlocks_moved (c.outcome 0) s buff sector hcount
    rw [heq]
    exact ⟨hdisk, hmoved.exact hready one_call_iff⟩
  · obtain ⟨t, r, m, heq, hdisk, hmoved⟩ := readSectors_moved c.outcome s hbuff hsector
    rw [heq]
    exact ⟨hdisk, hmoved.exact hready Iff.rfl⟩

theorem sdWrite_exact {c : Card} {r : DResult} (hcount : 1 ≤ count) (hbuff : buff + blockSize * count ≤ 2 ^ 32)
    (hsector : sector + count ≤ 2 ^ 32) (h : sdWrite c s buff sector count = some (t, r)) :
    t.memory = s.memory ∧
      Exact c r (calls buff count) s.memory buff s.disk t.disk (blockSize * sector) count := by
  refine of_status (P := fun t r => t.memory = s.memory ∧ Exact c r (calls buff count) s.memory buff s.disk
    t.disk (blockSize * sector) count) (fun hnot => ⟨rfl, .notReady hnot⟩) (fun hready => ?_) h
  unfold calls
  split
  · obtain ⟨t, r, m, heq, hmemory, hmoved⟩ := writeBlocks_moved (c.outcome 0) s buff sector hcount
    rw [heq]
    exact ⟨hmemory, hmoved.exact hready one_call_iff⟩
  · obtain ⟨t, r, m, heq, hmemory, hmoved⟩ := writeSectors_moved c.outcome s hbuff hsector
    rw [heq]
    exact ⟨hmemory, hmoved.exact hready Iff.rfl⟩

theorem round_trip {cw cr : Card} {u v : State} {target : Nat} (hcount : 1 ≤ count)
    (hbuff : buff + blockSize * count ≤ 2 ^ 32) (htarget : target + blockSize * count ≤ 2 ^ 32)
    (hsector : sector + count ≤ 2 ^ 32) (hwrite : sdWrite cw s buff sector count = some (t, .ok))
    (hkept : ∀ k < blockSize * count, u.disk (blockSize * sector + k) = t.disk (blockSize * sector + k))
    (hread : sdRead cr u target sector count = some (v, .ok)) :
    Cells.read v.memory target (blockSize * count) = Cells.read s.memory buff (blockSize * count) := by
  have hdisk := (sdWrite_exact hcount hbuff hsector hwrite).2.all rfl
  have hmemory := (sdRead_exact hcount htarget hsector hread).2.all rfl
  rw [hmemory, read_write_block Cells.length_read, Cells.read_congr hkept, hdisk,
    read_write_block Cells.length_read]

-- The paths with an aligned and an unaligned buffer.
structure Agreement (s : State) (buff sector count : Nat) : Prop where
  returns : ∀ c, Ready c →
    (∃ t r, sdRead c s buff sector count = some (t, r)) ∧ ∃ t r, sdWrite c s buff sector count = some (t, r)
  read : ∀ c t r, sdRead c s buff sector count = some (t, r) →
    t.disk = s.disk ∧
      Exact c r (calls buff count) s.disk (blockSize * sector) s.memory t.memory buff count
  write : ∀ c t r, sdWrite c s buff sector count = some (t, r) →
    t.memory = s.memory ∧
      Exact c r (calls buff count) s.memory buff s.disk t.disk (blockSize * sector) count
  sameRead : ∀ o outcome t u, readBlocks o s buff sector count = (t, .ok) →
    readSectors outcome s buff sector count = (u, .ok) → u.memory = t.memory ∧ u.disk = t.disk
  sameWrite : ∀ o outcome t u, writeBlocks o s buff sector count = (t, .ok) →
    writeSectors outcome s buff sector count = (u, .ok) → u.memory = t.memory ∧ u.disk = t.disk
  roundTrip : ∀ cw cr t u v target, target + blockSize * count ≤ 2 ^ 32 →
    sdWrite cw s buff sector count = some (t, .ok) →
    (∀ k < blockSize * count, u.disk (blockSize * sector + k) = t.disk (blockSize * sector + k)) →
    sdRead cr u target sector count = some (v, .ok) →
    Cells.read v.memory target (blockSize * count) = Cells.read s.memory buff (blockSize * count)

-- For every buffer of the address space and every range of sectors.
theorem paths_agree (s : State) (buff sector count : Nat) (hcount : 1 ≤ count)
    (hbuff : buff + blockSize * count ≤ 2 ^ 32) (hsector : sector + count ≤ 2 ^ 32) :
    Agreement s buff sector count where
  returns := by
    intro c hready
    have hstatus := (checkStatus_eq_zero_iff c).mpr hready
    unfold sdRead sdWrite
    rw [hstatus]
    exact ⟨⟨_, _, rfl⟩, _, _, rfl⟩
  read := fun _ _ _ h => sdRead_exact hcount hbuff hsector h
  write := fun _ _ _ h => sdWrite_exact hcount hbuff hsector h
  sameRead := by
    intro o outcome t u ht hu
    obtain ⟨t', r, m, heq, hdisk, hmoved⟩ := readBlocks_moved o s buff sector hcount
    cases heq.symm.trans ht
    obtain ⟨u', r', m', heq', hdisk', hmoved'⟩ := readSectors_moved outcome s hbuff hsector
    cases heq'.symm.trans hu
    obtain rfl := hmoved.ok_iff.mp rfl
    obtain rfl := hmoved'.ok_iff.mp rfl
    exact ⟨hmoved'.delivered.all.trans hmoved.delivered.all.symm, hdisk'.trans hdisk.symm⟩
  sameWrite := by
    intro o outcome t u ht hu
    obtain ⟨t', r, m, heq, hmemory, hmoved⟩ := writeBlocks_moved o s buff sector hcount
    cases heq.symm.trans ht
    obtain ⟨u', r', m', heq', hmemory', hmoved'⟩ :=
      writeSectors_moved outcome s hbuff hsector
    cases heq'.symm.trans hu
    obtain rfl := hmoved.ok_iff.mp rfl
    obtain rfl := hmoved'.ok_iff.mp rfl
    exact ⟨hmemory'.trans hmemory.symm, hmoved'.delivered.all.trans hmoved.delivered.all.symm⟩
  roundTrip := fun _ _ _ _ _ _ htarget hwrite hkept hread =>
    round_trip hcount hbuff htarget hsector hwrite hkept hread

-- Two sectors written from an aligned buffer and read into an unaligned one.
theorem paths_agree_run :
    let c : Card := ⟨5, [⟨5, false⟩, ⟨6, true⟩], fun _ => .done⟩
    let s : State := ⟨fun a => UInt8.ofNat a, fun _ => 0, fun _ => 0, fun _ => 0⟩
    ∃ t u, sdWrite c s 32 7 2 = some (t, .ok) ∧ sdRead c t 2049 7 2 = some (u, .ok) ∧
      Cells.read u.memory 2049 1024 = Cells.read s.memory 32 1024 := by
  intro c s
  have hagree := paths_agree s 32 7 2 (by decide) (by decide) (by decide)
  have hready : Ready c := ⟨[⟨5, false⟩], ⟨6, true⟩, [], rfl, rfl, by decide⟩
  obtain ⟨_, t, r, hwrite⟩ := hagree.returns c hready
  obtain rfl : r = .ok := (hagree.write c t r hwrite).2.ok_iff.mpr ⟨hready, fun _ _ => rfl⟩
  have hagreeRead := paths_agree t 2049 7 2 (by decide) (by decide) (by decide)
  obtain ⟨⟨u, r, hread⟩, _⟩ := hagreeRead.returns c hready
  obtain rfl : r = .ok := (hagreeRead.read c u r hread).2.ok_iff.mpr ⟨hready, fun _ _ => rfl⟩
  exact ⟨t, u, hwrite, hread, hagree.roundTrip c c t t u 2049 (by decide) hwrite (fun _ _ => rfl) hread⟩

end Disk

end SdCard

end Carbon
