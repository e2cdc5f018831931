import Carbon.Library.Transition
import Mathlib.Logic.Function.Basic

namespace Carbon

namespace Transmit

-- The size of tx_Buff.
def ethRxBufferSizeAligned : Nat := 1536

-- A descriptor of dmaTxDscrTab; ETH_TX_DESC_CNT is 2.
abbrev Pointer := Fin 2

def increaseTxPointer (pointer : Pointer) : Pointer :=
  if pointer = 1 then 0 else pointer + 1

inductive Err
  | ok
  | interface
  deriving DecidableEq

-- A chain of pbufs: the total length the first one states and the lengths of
-- all of them.
structure Pbuf where
  totLen : UInt16
  len : UInt16
  next : List UInt16

-- Where the call that holds tx_ptk_mutex stands: in its copy loop (which ends
-- with the test of the tail descriptor), before it writes the tail pointer, or at
-- the semaphore.
inductive Pc
  | idle
  | copying (rest : List UInt16) (size totalSize : Nat)
  | armed
  | waiting
  deriving DecidableEq

-- A return of a call, and whether its frame was completed by then.
structure Return where
  call : Nat
  err : Err
  completed : Bool

-- The semaphore's token, TI of DMACSR, and the interrupt handler between the
-- release and the clearing of TI. Besides: the call that armed each descriptor,
-- the calls whose frames are completed, the returns, and whether tx_Buff was
-- written under a descriptor of the DMA.
structure State where
  isInitialized : Bool
  busyTx : Bool
  pc : Pc
  call : Nat
  own : Pointer → Bool
  frame : Pointer → Nat
  tail : Pointer
  current : Pointer
  fetched : Bool
  ti : Bool
  isrReleased : Bool
  token : Bool
  completed : List Nat
  returns : List Return
  overwritten : Bool

def start (isInitialized busyTx : Bool) : State :=
  ⟨isInitialized, busyTx, .idle, 0, fun _ => false, fun _ => 0, 0, 0, false, false, false, false, [], [], false⟩

def finish (s : State) (err : Err) : State :=
  { s with pc := .idle, returns := ⟨s.call, err, decide (s.call ∈ s.completed)⟩ :: s.returns }

-- carbon_lwip_output up to its loop.
def enter (s : State) (p : Pbuf) : State :=
  let s := { s with call := s.call + 1 }
  if s.isInitialized = false ∨ s.busyTx = false then finish s .interface
  else if ethRxBufferSizeAligned < p.totLen.toNat then finish s .interface
  else { s with pc := .copying (p.len :: p.next) 0 p.totLen.toNat }

-- No other thread hands a descriptor to the DMA meanwhile, so one that owns none
-- at the start of the memcpy owns none throughout it.
def copy (s : State) (len : UInt16) (rest : List UInt16) (size totalSize : Nat) : State :=
  { s with
    pc := .copying rest (size + len.toNat) totalSize
    overwritten := s.overwritten || decide (len ≠ 0 ∧ ∃ d, s.own d = true) }

def arm (s : State) : State :=
  { s with
    pc := .armed
    own := Function.update s.own s.tail true
    frame := Function.update s.frame s.tail s.call }

def ring (s : State) : State :=
  { s with pc := .waiting, tail := increaseTxPointer s.tail }

-- The steps of a call between its entry and the semaphore.
def task (s : State) : Option State :=
  match s.pc with
  | .copying (len :: rest) size totalSize =>
      some (if totalSize ≤ size then finish s .interface else copy s len rest size totalSize)
  | .copying [] _ _ => some (if s.own s.tail then finish s .interface else arm s)
  | .armed => some (ring s)
  | .idle | .waiting => none

def complete (s : State) : State :=
  { s with
    own := Function.update s.own s.current false
    completed := s.frame s.current :: s.completed
    current := increaseTxPointer s.current
    fetched := false
    ti := true }

-- The DMA takes up a descriptor before the tail pointer and completes the one it
-- has taken up; the handler keeps the threads from running.
inductive Event
  | enter (p : Pbuf)
  | task
  | acquire
  | timeout
  | dmaFetch
  | dmaComplete
  | isrRelease
  | isrClear

def step (s : State) : Event → Option State
  | .enter p => if s.isrReleased = false ∧ s.pc = .idle then some (enter s p) else none
  | .task => if s.isrReleased = false then task s else none
  | .acquire =>
      if s.isrReleased = false ∧ s.pc = .waiting ∧ s.token = true then
        some (finish { s with token := false } .ok)
      else none
  | .timeout =>
      if s.isrReleased = false ∧ s.pc = .waiting ∧ s.token = false then some (finish s .interface)
      else none
  | .dmaFetch =>
      if s.fetched = false ∧ s.current ≠ s.tail ∧ s.own s.current = true then
        some { s with fetched := true }
      else none
  | .dmaComplete => if s.fetched = true then some (complete s) else none
  | .isrRelease =>
      if s.isrReleased = false ∧ s.ti = true then some { s with token := true, isrReleased := true }
      else none
  | .isrClear => if s.isrReleased = true then some { s with ti := false, isrReleased := false } else none

def system : Transition.System State Event where
  initial s := ∃ isInitialized busyTx, s = start isInitialized busyTx
  step := step

def OwnFrame (s : State) : Prop := ∀ r ∈ s.returns, r.err = .ok → r.completed = true

def Untouched (s : State) : Prop := s.overwritten = false

-- Nothing of an earlier call is left when bytes are copied or a descriptor is
-- armed: none is with the DMA, and at the arming no completion is pending.
def QuietAt (s : State) : Pc → Prop
  | .copying (len :: _) size totalSize => size < totalSize → len ≠ 0 → ∀ d, s.own d = false
  | .copying [] _ _ => s.own s.tail = false → (∀ d, s.own d = false) ∧ s.token = false ∧ s.ti = false
  | .idle | .armed | .waiting => True

instance (s : State) : DecidablePred (QuietAt s)
  | .copying (len :: _) size totalSize =>
      inferInstanceAs (Decidable (size < totalSize → len ≠ 0 → ∀ d, s.own d = false))
  | .copying [] _ _ =>
      inferInstanceAs (Decidable (s.own s.tail = false →
        (∀ d, s.own d = false) ∧ s.token = false ∧ s.ti = false))
  | .idle | .armed | .waiting => isTrue trivial

def Quiet (s : State) : Event → Prop
  | .task => QuietAt s s.pc
  | .enter _ | .acquire | .timeout | .dmaFetch | .dmaComplete | .isrRelease | .isrClear => True

instance (s : State) : DecidablePred (Quiet s)
  | .task => inferInstanceAs (Decidable (QuietAt s s.pc))
  | .enter _ | .acquire | .timeout | .dmaFetch | .dmaComplete | .isrRelease | .isrClear => isTrue trivial

variable {s t : State}

-- All that an event can do.
theorem step_cases {e : Event} (h : step s e = some t) :
    match e with
    | .enter p => s.isrReleased = false ∧ s.pc = .idle ∧ t = enter s p
    | .task => s.isrReleased = false ∧ task s = some t
    | .acquire => s.isrReleased = false ∧ s.pc = .waiting ∧ s.token = true ∧
        t = finish { s with token := false } .ok
    | .timeout => s.isrReleased = false ∧ s.pc = .waiting ∧ s.token = false ∧ t = finish s .interface
    | .dmaFetch => s.fetched = false ∧ s.current ≠ s.tail ∧ s.own s.current = true ∧
        t = { s with fetched := true }
    | .dmaComplete => s.fetched = true ∧ t = complete s
    | .isrRelease => s.isrReleased = false ∧ s.ti = true ∧ t = { s with token := true, isrReleased := true }
    | .isrClear => s.isrReleased = true ∧ t = { s with ti := false, isrReleased := false } := by
  cases e with
  | task => exact Option.ite_none_right_eq_some.mp h
  | enter p =>
      obtain ⟨⟨hidle, hpc⟩, h⟩ := Option.ite_none_right_eq_some.mp h
      exact ⟨hidle, hpc, (Option.some.inj h).symm⟩
  | acquire | timeout | dmaFetch =>
      obtain ⟨⟨hidle, hpc, htoken⟩, h⟩ := Option.ite_none_right_eq_some.mp h
      exact ⟨hidle, hpc, htoken, (Option.some.inj h).symm⟩
  | isrRelease =>
      obtain ⟨⟨hidle, hti⟩, h⟩ := Option.ite_none_right_eq_some.mp h
      exact ⟨hidle, hti, (Option.some.inj h).symm⟩
  | dmaComplete | isrClear =>
      obtain ⟨hon, h⟩ := Option.ite_none_right_eq_some.mp h
      exact ⟨hon, (Option.some.inj h).symm⟩

@[simp] theorem increase_increase (d : Pointer) : increaseTxPointer (increaseTxPointer d) = d := by
  revert d; decide

theorem increase_ne (d : Pointer) : increaseTxPointer d ≠ d := by
  revert d; decide

theorem eq_or_increase (d e : Pointer) : e = d ∨ e = increaseTxPointer d := by
  revert d e; decide

theorem arm_own (s : State) (d : Pointer) : (arm s).own d = if d = s.tail then true else s.own d :=
  Function.update_apply s.own s.tail true d

theorem arm_frame (s : State) (d : Pointer) : (arm s).frame d = if d = s.tail then s.call else s.frame d :=
  Function.update_apply s.frame s.tail s.call d

theorem complete_own (s : State) (d : Pointer) :
    (complete s).own d = if d = s.current then false else s.own d :=
  Function.update_apply s.own s.current false d

-- The DMA owns at most its current descriptor; while it does, the tail pointer
-- is behind that one or about to be written. The call at the semaphore has its
-- frame with the DMA and nothing pending, or its frame is completed.
structure Inv (s : State) : Prop where
  ownFrame : OwnFrame s
  untouched : Untouched s
  other : s.own (increaseTxPointer s.current) = false
  free : s.own s.current = false → s.tail = s.current ∧ s.fetched = false
  busy : s.own s.current = true → s.pc ≠ .armed → s.tail = increaseTxPointer s.current
  armed : s.pc = .armed → s.own s.current = true ∧ s.tail = s.current ∧ s.fetched = false
  pending : s.pc = .armed ∨ s.pc = .waiting → s.own s.current = true →
    s.frame s.current = s.call ∧ s.token = false ∧ s.ti = false ∧ s.isrReleased = false
  done : s.pc = .waiting → s.own s.current = false → s.call ∈ s.completed

theorem Inv.none_owned (h : Inv s) (hown : s.own s.current = false) (d : Pointer) : s.own d = false := by
  rcases eq_or_increase s.current d with rfl | rfl
  · exact hown
  · exact h.other

-- Leaving the call keeps everything but the claim on its frame.
theorem Inv.finish (h : Inv s) (err : Err) (hpc : s.pc ≠ .armed)
    (herr : err = .ok → s.call ∈ s.completed) : Inv (finish s err) where
  ownFrame := by
    intro r hr hok
    rcases List.mem_cons.mp hr with rfl | hr
    · exact decide_eq_true (herr hok)
    · exact h.ownFrame r hr hok
  untouched := h.untouched
  other := h.other
  free := h.free
  busy := fun hown _ => h.busy hown hpc
  armed := nofun
  pending := by rintro (hidle | hidle) <;> cases hidle
  done := nofun

theorem Inv.enter (h : Inv s) (hpc : s.pc = .idle) (p : Pbuf) : Inv (enter s p) := by
  have hcalled : Inv { s with call := s.call + 1 } :=
    { ownFrame := h.ownFrame, untouched := h.untouched, other := h.other, free := h.free, busy := h.busy
      armed := h.armed
      pending := by rw [hpc]; rintro (hidle | hidle) <;> cases hidle
      done := by rw [hpc]; nofun }
  have hfail := hcalled.finish .interface (by rw [hpc]; nofun) nofun
  unfold Transmit.enter
  dsimp only
  split
  · exact hfail
  · split
    · exact hfail
    · exact
        { ownFrame := h.ownFrame, untouched := h.untouched, other := h.other, free := h.free
          busy := fun hown _ => h.busy hown (by rw [hpc]; nofun)
          armed := nofun
          pending := by rintro (hcopying | hcopying) <;> cases hcopying
          done := nofun }

theorem Inv.copy (h : Inv s) {len : UInt16} {rest : List UInt16} {size totalSize : Nat}
    (hpc : s.pc ≠ .armed) (hquiet : len ≠ 0 → ∀ d, s.own d = false) :
    Inv (copy s len rest size totalSize) where
  ownFrame := h.ownFrame
  untouched := by
    have hnone : decide (len ≠ 0 ∧ ∃ d, s.own d = true) = false := by
      refine decide_eq_false ?_
      rintro ⟨hlen, d, hd⟩
      rw [hquiet hlen d] at hd
      cases hd
    unfold Untouched Transmit.copy
    rw [h.untouched, hnone]
    rfl
  other := h.other
  free := h.free
  busy := fun hown _ => h.busy hown hpc
  armed := nofun
  pending := by rintro (hcopying | hcopying) <;> cases hcopying
  done := nofun

-- The frame goes to the descriptor at which the DMA is idle.
theorem Inv.arm (h : Inv s) (hown : s.own s.current = false) (htoken : s.token = false)
    (hti : s.ti = false) (hisr : s.isrReleased = false) : Inv (arm s) := by
  obtain ⟨htail, hfetched⟩ := h.free hown
  have howned : (Transmit.arm s).own s.current = true := by
    rw [arm_own, htail, if_pos rfl]
  have hframe : (Transmit.arm s).frame s.current = s.call := by
    rw [arm_frame, htail, if_pos rfl]
  have hother : (Transmit.arm s).own (increaseTxPointer s.current) = false := by
    rw [arm_own, htail, if_neg (increase_ne s.current)]
    exact h.other
  exact
    { ownFrame := h.ownFrame, untouched := h.untouched, other := hother
      free := fun hfree => absurd (howned.symm.trans hfree) (by decide)
      busy := fun _ hne => absurd rfl hne
      armed := fun _ => ⟨howned, htail, hfetched⟩
      pending := fun _ _ => ⟨hframe, htoken, hti, hisr⟩
      done := nofun }

theorem Inv.ring (h : Inv s) (hpc : s.pc = .armed) : Inv (ring s) := by
  obtain ⟨howned, htail, _⟩ := h.armed hpc
  exact
    { ownFrame := h.ownFrame, untouched := h.untouched, other := h.other
      free := fun hfree => absurd (howned.symm.trans hfree) (by decide)
      busy := fun _ _ => congrArg increaseTxPointer htail
      armed := nofun
      pending := fun _ => h.pending (.inl hpc)
      done := fun _ hfree => absurd (howned.symm.trans hfree) (by decide) }

theorem Inv.task (h : Inv s) (hisr : s.isrReleased = false) (hquiet : QuietAt s s.pc)
    (hstep : task s = some t) : Inv t := by
  unfold Transmit.task at hstep
  cases hpc : s.pc with
  | idle | waiting => rw [hpc] at hstep; cases hstep
  | armed =>
      rw [hpc] at hstep
      cases hstep
      exact h.ring hpc
  | copying rest size totalSize =>
      have hcopying : s.pc ≠ .armed := by rw [hpc]; nofun
      have hfail := h.finish .interface hcopying nofun
      rw [hpc] at hstep hquiet
      cases rest with
      | nil =>
          cases hstep
          split
          · exact hfail
          · rename_i htail
            obtain ⟨hnone, htoken, hti⟩ := hquiet (Bool.eq_false_iff.mpr htail)
            exact h.arm (hnone s.current) htoken hti hisr
      | cons len rest =>
          cases hstep
          split
          · exact hfail
          · rename_i hsize
            exact h.copy hcopying (hquiet (Nat.lt_of_not_le hsize))

theorem Inv.owned_of_fetched (h : Inv s) (hfetched : s.fetched = true) : s.own s.current = true := by
  by_contra hfree
  have hidle := (h.free (Bool.eq_false_iff.mpr hfree)).2
  rw [hfetched] at hidle
  cases hidle

theorem Inv.complete (h : Inv s) (hfetched : s.fetched = true) : Inv (complete s) := by
  have howned := h.owned_of_fetched hfetched
  have hpc : s.pc ≠ .armed := by
    intro hpc
    have := (h.armed hpc).2.2
    rw [hfetched] at this
    cases this
  have hnext : (Transmit.complete s).own (increaseTxPointer s.current) = false := by
    rw [complete_own, if_neg (increase_ne s.current)]
    exact h.other
  have hlast : (Transmit.complete s).own (increaseTxPointer (increaseTxPointer s.current)) = false := by
    rw [increase_increase, complete_own, if_pos rfl]
  exact
    { ownFrame := h.ownFrame, untouched := h.untouched, other := hlast
      free := fun _ => ⟨h.busy howned hpc, rfl⟩
      busy := fun hown => absurd (hown.symm.trans hnext) (by decide)
      armed := fun harmed => absurd harmed hpc
      pending := fun _ hown => absurd (hown.symm.trans hnext) (by decide)
      done := fun hwaiting _ =>
        List.mem_cons.mpr (.inl (h.pending (.inr hwaiting) howned).1.symm) }

theorem Inv.step (h : Inv s) {e : Event} (hok : Quiet s e) (hstep : Transmit.step s e = some t) : Inv t := by
  have hcases := step_cases hstep
  cases e with
  | enter p =>
      obtain ⟨_, hpc, rfl⟩ := hcases
      exact h.enter hpc p
  | task => exact h.task hcases.1 hok hcases.2
  | acquire =>
      obtain ⟨_, hpc, htoken, rfl⟩ := hcases
      -- The token shows that the frame is no longer with the DMA.
      have hfree : s.own s.current = false := by
        by_contra howned
        have hnone := (h.pending (.inr hpc) ((Bool.not_eq_false _).mp howned)).2.1
        rw [htoken] at hnone
        cases hnone
      have htaken : Inv { s with token := false } :=
        { ownFrame := h.ownFrame, untouched := h.untouched, other := h.other, free := h.free, busy := h.busy
          armed := h.armed
          pending := fun hat howned => ⟨(h.pending hat howned).1, rfl, (h.pending hat howned).2.2⟩
          done := h.done }
      exact htaken.finish .ok (by rw [hpc]; nofun) fun _ => h.done hpc hfree
  | timeout =>
      obtain ⟨_, hpc, _, rfl⟩ := hcases
      exact h.finish .interface (by rw [hpc]; nofun) nofun
  | dmaFetch =>
      obtain ⟨_, hbehind, howned, rfl⟩ := hcases
      exact
        { ownFrame := h.ownFrame, untouched := h.untouched, other := h.other, busy := h.busy
          free := fun hfree => absurd (howned.symm.trans hfree) (by decide)
          armed := fun hpc => absurd (h.armed hpc).2.1.symm hbehind
          pending := h.pending, done := h.done }
  | dmaComplete =>
      obtain ⟨hfetched, rfl⟩ := hcases
      exact h.complete hfetched
  | isrRelease =>
      obtain ⟨_, hti, rfl⟩ := hcases
      exact
        { ownFrame := h.ownFrame, untouched := h.untouched, other := h.other, free := h.free, busy := h.busy
          armed := h.armed, done := h.done
          pending := fun hat howned => absurd (hti.symm.trans (h.pending hat howned).2.2.1) (by decide) }
  | isrClear =>
      obtain ⟨_, rfl⟩ := hcases
      exact
        { ownFrame := h.ownFrame, untouched := h.untouched, other := h.other, free := h.free, busy := h.busy
          armed := h.armed, done := h.done
          pending := fun hat howned => ⟨(h.pending hat howned).1, (h.pending hat howned).2.1, rfl, rfl⟩ }

theorem inv_of_reachable (hs : system.ReachableBy Quiet s) : Inv s := by
  refine hs.invariant (P := Inv) ?_ fun s e t h hok hstep => h.step hok hstep
  rintro s ⟨_, _, rfl⟩
  exact
    { ownFrame := nofun, untouched := rfl, other := rfl, free := fun _ => ⟨rfl, rfl⟩, busy := nofun
      armed := nofun, pending := fun _ => nofun, done := nofun }

def Pc.copies : Pc → Bool
  | .copying _ _ _ => true
  | .idle | .armed | .waiting => false

-- A call that still copies is not among those whose frames the DMA has or had.
structure Fresh (s : State) : Prop where
  completed : ∀ call ∈ s.completed, call ≤ s.call ∧ (s.pc.copies = true → call < s.call)
  frame : ∀ d, s.own d = true → s.frame d ≤ s.call ∧ (s.pc.copies = true → s.frame d < s.call)

theorem Fresh.leave (h : Fresh s) (hcall : t.call = s.call) (hcompleted : t.completed = s.completed)
    (hown : t.own = s.own) (hframe : t.frame = s.frame) (hpc : t.pc.copies = true → s.pc.copies = true) :
    Fresh t := by
  refine ⟨?_, ?_⟩
  · rw [hcall, hcompleted]
    exact fun call hmem => ⟨(h.completed call hmem).1, fun hc => (h.completed call hmem).2 (hpc hc)⟩
  · rw [hcall, hown, hframe]
    exact fun d hd => ⟨(h.frame d hd).1, fun hc => (h.frame d hd).2 (hpc hc)⟩

theorem Fresh.enter (h : Fresh s) (p : Pbuf) : Fresh (enter s p) := by
  have hcalled : ∀ pc returns overwritten, Fresh { s with call := s.call + 1, pc, returns, overwritten } :=
    fun _ _ _ =>
      { completed := fun call hmem =>
          ⟨Nat.le_succ_of_le (h.completed call hmem).1, fun _ => Nat.lt_succ_of_le (h.completed call hmem).1⟩
        frame := fun d hd =>
          ⟨Nat.le_succ_of_le (h.frame d hd).1, fun _ => Nat.lt_succ_of_le (h.frame d hd).1⟩ }
  unfold Transmit.enter
  dsimp only
  split
  · exact hcalled _ _ _
  · split
    · exact hcalled _ _ _
    · exact hcalled _ _ _

theorem Fresh.arm (h : Fresh s) : Fresh (arm s) where
  completed := fun call hmem => ⟨(h.completed call hmem).1, nofun⟩
  frame := by
    intro d hd
    refine ⟨?_, nofun⟩
    rw [arm_own] at hd
    rw [arm_frame]
    split
    · exact Nat.le_refl _
    · rename_i hne
      rw [if_neg hne] at hd
      exact (h.frame d hd).1

theorem Fresh.complete (h : Fresh s) (howned : s.own s.current = true) : Fresh (complete s) where
  completed := by
    intro call hmem
    rcases List.mem_cons.mp hmem with rfl | hmem
    · exact h.frame s.current howned
    · exact h.completed call hmem
  frame := by
    intro d hd
    rw [complete_own] at hd
    split at hd
    · cases hd
    · exact h.frame d hd

-- Only the arming and the completion touch the frames, only the entry the number
-- of the call.
theorem Fresh.step (h : Fresh s) (hinv : Inv s) {e : Event} (hstep : Transmit.step s e = some t) : Fresh t := by
  have hcases := step_cases hstep
  cases e with
  | enter p =>
      obtain ⟨_, _, rfl⟩ := hcases
      exact h.enter p
  | task =>
      obtain ⟨_, hstep⟩ := hcases
      unfold task at hstep
      split at hstep
      · rename_i hpc
        cases hstep
        split
        · exact h.leave rfl rfl rfl rfl nofun
        · exact h.leave rfl rfl rfl rfl fun _ => by rw [hpc]; rfl
      · cases hstep
        split
        · exact h.leave rfl rfl rfl rfl nofun
        · exact h.arm
      · cases hstep
        exact h.leave rfl rfl rfl rfl nofun
      · cases hstep
      · cases hstep
  | acquire | timeout =>
      obtain ⟨_, _, _, rfl⟩ := hcases
      exact h.leave rfl rfl rfl rfl nofun
  | dmaFetch =>
      obtain ⟨_, _, _, rfl⟩ := hcases
      exact h.leave rfl rfl rfl rfl id
  | dmaComplete =>
      obtain ⟨hfetched, rfl⟩ := hcases
      exact h.complete (hinv.owned_of_fetched hfetched)
  | isrRelease =>
      obtain ⟨_, _, rfl⟩ := hcases
      exact h.leave rfl rfl rfl rfl id
  | isrClear =>
      obtain ⟨_, rfl⟩ := hcases
      exact h.leave rfl rfl rfl rfl id

theorem fresh_of_reachable (hs : system.ReachableBy Quiet s) : Fresh s := by
  have hboth : Inv s ∧ Fresh s := by
    refine hs.invariant (P := fun s => Inv s ∧ Fresh s) ?_
      fun s e t ⟨hinv, h⟩ hok hstep => ⟨hinv.step hok hstep, h.step hinv hstep⟩
    rintro s ⟨isInitialized, busyTx, rfl⟩
    exact ⟨inv_of_reachable (.start ⟨isInitialized, busyTx, rfl⟩), nofun, nofun⟩
  exact hboth.2

def Breaks (s : State) : Prop :=
  ∃ labels t, system.run s labels = some t ∧ ¬(OwnFrame t ∧ Untouched t)

theorem Breaks.next {e : Event} (hstep : step s e = some t) (h : Breaks t) : Breaks s := by
  obtain ⟨labels, u, hrun, hbroken⟩ := h
  exact ⟨e :: labels, u, by rw [Transition.System.run, show system.step s e = some t from hstep]; exact hrun,
    hbroken⟩

-- The call takes a token that is not its own.
theorem breaks_of_token (hpc : s.pc = .armed) (hisr : s.isrReleased = false) (htoken : s.token = true)
    (hnot : s.call ∉ s.completed) : Breaks s := by
  have hring : step s .task = some (ring s) := by
    rw [step, if_pos hisr, task, hpc]
  refine .next hring ⟨[.acquire], finish { ring s with token := false } .ok, ?_, fun hbroken => ?_⟩
  · have hacquire : step (ring s) .acquire = some (finish { ring s with token := false } .ok) :=
      if_pos ⟨hisr, rfl, htoken⟩
    rw [Transition.System.run, show system.step (ring s) .acquire = _ from hacquire]
    rfl
  · have hcompleted := hbroken.1 ⟨s.call, .ok, decide (s.call ∈ s.completed)⟩ List.mem_cons_self rfl
    exact hnot (of_decide_eq_true hcompleted)

theorem breaks_of_ti (hpc : s.pc = .armed) (hisr : s.isrReleased = false) (hti : s.ti = true)
    (hnot : s.call ∉ s.completed) : Breaks s := by
  have hrelease : step s .isrRelease = some { s with token := true, isrReleased := true } :=
    if_pos ⟨hisr, hti⟩
  have hclear : step { s with token := true, isrReleased := true } .isrClear =
      some { s with token := true, ti := false, isrReleased := false } := rfl
  exact .next hrelease (.next hclear (breaks_of_token hpc rfl rfl hnot))

-- The earlier frame is completed while the call is about to write the tail
-- pointer.
theorem breaks_of_owned (hpc : s.pc = .armed) (hisr : s.isrReleased = false) (hbehind : s.current ≠ s.tail)
    (howned : s.own s.current = true) (hframe : s.frame s.current ≠ s.call) (hnot : s.call ∉ s.completed) :
    Breaks s := by
  have hcomplete : ∀ s : State, s.pc = .armed → s.isrReleased = false → s.fetched = true →
      s.frame s.current ≠ s.call → s.call ∉ s.completed → Breaks s := by
    intro s hpc hisr hfetched hframe hnot
    refine .next (t := complete s) (e := .dmaComplete) (if_pos hfetched) (breaks_of_ti hpc hisr rfl ?_)
    intro hmem
    rcases List.mem_cons.mp hmem with heq | hmem
    · exact hframe heq.symm
    · exact hnot hmem
  cases hfetched : s.fetched with
  | true => exact hcomplete s hpc hisr hfetched hframe hnot
  | false =>
      exact .next (t := { s with fetched := true }) (e := .dmaFetch) (if_pos ⟨hfetched, hbehind, howned⟩)
        (hcomplete _ hpc hisr rfl hframe hnot)

-- A call that arms a descriptor with something of an earlier one left may return
-- in its place.
theorem Inv.breaks_arm (h : Inv s) (hfresh : Fresh s) (hcopies : s.pc.copies = true)
    (hisr : s.isrReleased = false) (htail : s.own s.tail = false)
    (hbad : ¬((∀ d, s.own d = false) ∧ s.token = false ∧ s.ti = false)) :
    Breaks (Transmit.arm s) := by
  have hnot : s.call ∉ s.completed := fun hmem =>
    Nat.lt_irrefl _ ((hfresh.completed s.call hmem).2 hcopies)
  by_cases htoken : s.token = true
  · exact breaks_of_token rfl hisr htoken hnot
  by_cases hti : s.ti = true
  · exact breaks_of_ti rfl hisr hti hnot
  have howned : s.own s.current = true := by
    by_contra hfree
    exact hbad ⟨h.none_owned (Bool.eq_false_iff.mpr hfree), Bool.eq_false_iff.mpr htoken,
      Bool.eq_false_iff.mpr hti⟩
  have hbehind : s.current ≠ s.tail := by
    intro heq
    rw [heq, htail] at howned
    cases howned
  refine breaks_of_owned rfl hisr hbehind ?_ ?_ hnot
  · show (Transmit.arm s).own s.current = true
    rw [arm_own, if_neg hbehind]
    exact howned
  · show (Transmit.arm s).frame s.current ≠ s.call
    rw [arm_frame, if_neg hbehind]
    exact Nat.ne_of_lt ((hfresh.frame s.current howned).2 hcopies)

theorem Inv.breaks (h : Inv s) (hfresh : Fresh s) {e : Event} (hbad : ¬Quiet s e)
    (hstep : Transmit.step s e = some t) : Breaks t := by
  cases e with
  | enter | acquire | timeout | dmaFetch | dmaComplete | isrRelease | isrClear => exact absurd trivial hbad
  | task =>
      obtain ⟨hisr, hstep⟩ := Option.ite_none_right_eq_some.mp hstep
      have hbad : ¬QuietAt s s.pc := hbad
      unfold Transmit.task at hstep
      cases hpc : s.pc with
      | idle | waiting | armed => rw [hpc] at hbad; exact absurd trivial hbad
      | copying rest size totalSize =>
          rw [hpc] at hbad hstep
          cases rest with
          | nil =>
              obtain ⟨htail, hbad⟩ := Classical.not_imp.mp hbad
              rw [if_neg (ne_true_of_eq_false htail)] at hstep
              cases hstep
              exact h.breaks_arm hfresh (by rw [hpc]; rfl) hisr htail hbad
          | cons len rest =>
              obtain ⟨hsize, hbad⟩ := Classical.not_imp.mp hbad
              obtain ⟨hlen, howned⟩ := Classical.not_imp.mp hbad
              cases hstep
              refine ⟨[], _, rfl, fun hbroken => ?_⟩
              have huntouched := hbroken.2
              rw [if_neg (Nat.not_le_of_lt hsize)] at huntouched
              have hmodified : decide (len ≠ 0 ∧ ∃ d, s.own d = true) = true := by
                obtain ⟨d, hd⟩ := not_forall.mp howned
                exact decide_eq_true ⟨hlen, d, (Bool.not_eq_false _).mp hd⟩
              unfold Untouched Transmit.copy at huntouched
              rw [hmodified, Bool.or_true] at huntouched
              cases huntouched

-- In a run in which no call copies over a frame with the DMA or arms a descriptor
-- with a completion of an earlier call outstanding, ERR_OK stands for the call's
-- own frame and the buffer is not touched; any other call breaks one of the two.
theorem output_own_frame (hs : system.ReachableBy Quiet s) :
    (OwnFrame s ∧ Untouched s) ∧ ∀ e t, ¬Quiet s e → system.step s e = some t → Breaks t :=
  have h := inv_of_reachable hs
  ⟨⟨h.ownFrame, h.untouched⟩, fun _ _ hbad hstep => h.breaks (fresh_of_reachable hs) hbad hstep⟩

-- The first call gives up before its frame is completed, and the second one both
-- writes over that frame and returns on its completion.
theorem late_completion_overlaps :
    (¬∀ s, system.Reachable s → OwnFrame s) ∧ ¬∀ s, system.Reachable s → Untouched s := by
  have hreach := Transition.System.ReachableBy.get system (fun _ _ => True)
    [.enter ⟨60, 60, []⟩, .task, .task, .task, .timeout, .enter ⟨60, 60, []⟩, .task, .task, .dmaFetch,
      .dmaComplete, .isrRelease, .isrClear, .task, .acquire]
    (s := start true true) ⟨true, true, rfl⟩ (by decide)
  refine ⟨fun h => ?_, fun h => ?_⟩
  · have hframe := h _ hreach
    revert hframe
    unfold OwnFrame
    decide
  · have huntouched := h _ hreach
    cases huntouched

-- Two calls, the first one of a chain of two pbufs.
def twoCalls : List Event :=
  [.enter ⟨60, 20, [40]⟩, .task, .task, .task, .task, .dmaFetch, .dmaComplete, .isrRelease, .isrClear,
    .acquire, .enter ⟨90, 90, []⟩, .task, .task, .task, .dmaFetch, .dmaComplete, .isrRelease, .isrClear,
    .acquire]

theorem twoCalls_runs : (system.runBy Quiet (start true true) twoCalls).isSome := by decide

theorem output_own_frame_run :
    ∃ s, system.runBy Quiet (start true true) twoCalls = some s ∧
      s.returns.map Return.err = [.ok, .ok] ∧ OwnFrame s ∧ Untouched s :=
  have hstart : system.ReachableBy Quiet (start true true) := .start ⟨true, true, rfl⟩
  ⟨_, (Option.some_get twoCalls_runs).symm, rfl, (output_own_frame (hstart.after twoCalls twoCalls_runs)).1⟩

end Transmit

end Carbon
