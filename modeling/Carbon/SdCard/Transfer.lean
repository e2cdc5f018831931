import Carbon.Library.Transition
import Mathlib.Logic.Function.Basic

namespace Carbon

namespace SdCard

namespace Transfer

def sdInstancesNbr : Nat := 1

inductive BspError
  | none
  | wrongParam
  | periphFailure
  deriving DecidableEq

inductive Direction
  | rx
  | tx
  deriving DecidableEq

-- Where a call stands: in the card state loop before its transfer, at its
-- semaphore, or in the loop after it.
inductive Pc
  | idle
  | before (dir : Direction)
  | waiting (dir : Direction)
  | behind (err : BspError) (waited : Option Nat)
  deriving DecidableEq

-- `waited` is the call whose completion this one has waited for.
structure Return where
  call : Nat
  err : BspError
  waited : Option Nat

-- State and Context of the handle are the transfer under way; without one it is
-- ready. The calls are numbered in their order, and a token carries the call at
-- whose completion it was released.
structure State where
  transfer : Option (Nat × Direction)
  token : Direction → Option Nat
  pc : Nat → Pc
  calls : Nat
  returns : List Return

def initial : State := ⟨.none, fun _ => .none, fun _ => .idle, 0, []⟩

def State.setPc (s : State) (call : Nat) (pc : Pc) : State :=
  { s with pc := Function.update s.pc call pc }

def finish (s : State) (call : Nat) (err : BspError) (waited : Option Nat) : State :=
  { s.setPc call .idle with returns := ⟨call, err, waited⟩ :: s.returns }

def enter (s : State) (dir : Direction) (inst : UInt32) : State :=
  let call := s.calls
  let s := { s with calls := s.calls + 1 }
  if sdInstancesNbr ≤ inst.toNat then finish s call .wrongParam .none else s.setPc call (.before dir)

def bspSdReadBlocksDMA (s : State) (inst : UInt32) : State := enter s .rx inst

def bspSdWriteBlocksDMA (s : State) (inst : UInt32) : State := enter s .tx inst

-- HAL_SD_ReadBlocks_DMA or HAL_SD_WriteBlocks_DMA: a handle that is not ready is
-- busy, and `accepted` says that the arguments and the command are in order. The
-- volume lock keeps the calls from being inside together.
def start (s : State) (call : Nat) (dir : Direction) (accepted : Bool) : State :=
  match s.transfer, accepted with
  | .none, true => { s.setPc call (.waiting dir) with transfer := some (call, dir) }
  | _, _ => finish s call .periphFailure .none

-- A release of the full binary semaphore fails.
def release (s : State) (dir : Direction) (call : Nat) : State :=
  match s.token dir with
  | .none => { s with token := Function.update s.token dir (some call) }
  | some _ => s

def bspSdReadCpltCallback (s : State) (call : Nat) : State := release s .rx call

def bspSdWriteCpltCallback (s : State) (call : Nat) : State := release s .tx call

-- HAL_SD_IRQHandler at the end of the data, after it has set the handle ready.
def cpltCallback (s : State) (call : Nat) : Direction → State
  | .rx => bspSdReadCpltCallback s call
  | .tx => bspSdWriteCpltCallback s call

-- The error interrupt makes the handle ready without a callback of the board. The
-- card state loops end when the card says so.
inductive Event
  | readBlocksDMA (inst : UInt32)
  | writeBlocksDMA (inst : UInt32)
  | start (call : Nat) (accepted : Bool)
  | complete
  | error
  | acquire (call : Nat)
  | timeout (call : Nat)
  | cardReady (call : Nat)

def startStep (s : State) (call : Nat) (accepted : Bool) : Option State :=
  match s.pc call with
  | .before dir => some (start s call dir accepted)
  | .idle | .waiting _ | .behind _ _ => .none

def complete (s : State) : Option State :=
  match s.transfer with
  | some (call, dir) => some (cpltCallback { s with transfer := .none } call dir)
  | .none => .none

def error (s : State) : Option State :=
  match s.transfer with
  | some _ => some { s with transfer := .none }
  | .none => .none

def acquire (s : State) (call : Nat) : Option State :=
  match s.pc call with
  | .waiting dir =>
      match s.token dir with
      | some owner =>
          some { s.setPc call (.behind .none (some owner)) with token := Function.update s.token dir .none }
      | .none => .none
  | .idle | .before _ | .behind _ _ => .none

def timeout (s : State) (call : Nat) : Option State :=
  match s.pc call with
  | .waiting dir =>
      match s.token dir with
      | some _ => .none
      | .none => some (s.setPc call (.behind .periphFailure .none))
  | .idle | .before _ | .behind _ _ => .none

def cardReady (s : State) (call : Nat) : Option State :=
  match s.pc call with
  | .behind err waited => some (finish s call err waited)
  | .idle | .before _ | .waiting _ => .none

def step (s : State) : Event → Option State
  | .readBlocksDMA inst => some (bspSdReadBlocksDMA s inst)
  | .writeBlocksDMA inst => some (bspSdWriteBlocksDMA s inst)
  | .start call accepted => startStep s call accepted
  | .complete => complete s
  | .error => error s
  | .acquire call => acquire s call
  | .timeout call => timeout s call
  | .cardReady call => cardReady s call

def system : Transition.System State Event where
  initial s := s = initial
  step := step

def OwnTransfer (s : State) : Prop := ∀ r ∈ s.returns, r.err = .none → r.waited = some r.call

-- The semaphore is empty when a transfer is started that ends at it, and nobody
-- else waits there.
def ClearAt (s : State) : Pc → Prop
  | .before dir => s.transfer = .none → s.token dir = .none ∧ ∀ d < s.calls, s.pc d ≠ .waiting dir
  | .idle | .waiting _ | .behind _ _ => True

instance (s : State) : DecidablePred (ClearAt s)
  | .before dir =>
      inferInstanceAs (Decidable (s.transfer = .none →
        s.token dir = .none ∧ ∀ d < s.calls, s.pc d ≠ .waiting dir))
  | .idle | .waiting _ | .behind _ _ => isTrue trivial

def Clear (s : State) : Event → Prop
  | .start call true => ClearAt s (s.pc call)
  | .start _ false | .readBlocksDMA _ | .writeBlocksDMA _ | .complete | .error | .acquire _ | .timeout _
  | .cardReady _ => True

instance (s : State) : DecidablePred (Clear s)
  | .start call true => inferInstanceAs (Decidable (ClearAt s (s.pc call)))
  | .start _ false | .readBlocksDMA _ | .writeBlocksDMA _ | .complete | .error | .acquire _ | .timeout _
  | .cardReady _ => isTrue trivial

variable {s t : State} {call : Nat} {dir : Direction}

-- All that an event can do.
theorem step_cases {e : Event} (h : step s e = some t) :
    match e with
    | .readBlocksDMA inst => t = enter s .rx inst
    | .writeBlocksDMA inst => t = enter s .tx inst
    | .start call accepted => ∃ dir, s.pc call = .before dir ∧ t = start s call dir accepted
    | .complete => ∃ call dir, s.transfer = some (call, dir) ∧
        t = release { s with transfer := .none } dir call
    | .error => t = { s with transfer := .none }
    | .acquire call => ∃ dir owner, s.pc call = .waiting dir ∧ s.token dir = some owner ∧
        t = { s.setPc call (.behind .none (some owner)) with token := Function.update s.token dir .none }
    | .timeout call => ∃ dir, s.pc call = .waiting dir ∧ t = s.setPc call (.behind .periphFailure .none)
    | .cardReady call => ∃ err waited, s.pc call = .behind err waited ∧ t = finish s call err waited := by
  cases e with
  | readBlocksDMA | writeBlocksDMA => exact (Option.some.inj h).symm
  | start call accepted =>
      simp only [step, startStep] at h
      split at h
      · rename_i dir hpc
        exact ⟨dir, hpc, (Option.some.inj h).symm⟩
      all_goals cases h
  | complete =>
      simp only [step, complete] at h
      split at h
      · rename_i call dir htransfer
        refine ⟨call, dir, htransfer, ?_⟩
        rw [← Option.some.inj h]
        cases dir <;> rfl
      · cases h
  | error =>
      simp only [step, error] at h
      split at h
      · exact (Option.some.inj h).symm
      · cases h
  | acquire call =>
      simp only [step, acquire] at h
      split at h
      · rename_i dir hpc
        split at h
        · rename_i owner htoken
          exact ⟨dir, owner, hpc, htoken, (Option.some.inj h).symm⟩
        · cases h
      all_goals cases h
  | timeout call =>
      simp only [step, timeout] at h
      split at h
      · rename_i dir hpc
        split at h
        · cases h
        · exact ⟨dir, hpc, (Option.some.inj h).symm⟩
      all_goals cases h
  | cardReady call =>
      simp only [step, cardReady] at h
      split at h
      · rename_i err waited hpc
        exact ⟨err, waited, hpc, (Option.some.inj h).symm⟩
      all_goals cases h

theorem setPc_pc (pc : Pc) (d : Nat) : (s.setPc call pc).pc d = if d = call then pc else s.pc d :=
  Function.update_apply s.pc call pc d

-- The tokens after a release and after an acquire.
theorem released_token {owner : Nat} {other : Direction}
    (h : Function.update s.token dir (some call) other = some owner) :
    (other = dir ∧ owner = call) ∨ s.token other = some owner := by
  rw [Function.update_apply] at h
  split at h
  · cases h
    exact .inl ⟨‹_›, rfl⟩
  · exact .inr h

theorem taken_token {owner : Nat} {other : Direction}
    (h : Function.update s.token dir .none other = some owner) : s.token other = some owner := by
  rw [Function.update_apply] at h
  split at h
  · cases h
  · exact h

-- Only the call a token or a transfer belongs to may wait at its semaphore, so
-- the token it takes is its own.
structure Inv (s : State) : Prop where
  ownTransfer : OwnTransfer s
  behind : ∀ call waited, s.pc call = .behind .none waited → waited = some call
  transfer : ∀ call dir, s.transfer = some (call, dir) →
    s.token dir = .none ∧ ∀ d, s.pc d = .waiting dir → d = call
  token : ∀ call dir, s.token dir = some call → ∀ d, s.pc d = .waiting dir → d = call

-- The calls made so far; one that a token or a transfer belongs to is past its
-- start.
structure Begun (s : State) : Prop where
  calls : ∀ call, s.calls ≤ call → s.pc call = .idle
  transfer : ∀ call dir, s.transfer = some (call, dir) → call < s.calls ∧ ∀ d, s.pc call ≠ .before d
  token : ∀ call dir, s.token dir = some call → call < s.calls ∧ ∀ d, s.pc call ≠ .before d

-- A call that does not go to a semaphore leaves all others where they are.
theorem Inv.setPc (h : Inv s) {pc : Pc} (hwaiting : ∀ dir, pc ≠ .waiting dir)
    (hbehind : ∀ waited, pc = .behind .none waited → waited = some call) : Inv (s.setPc call pc) := by
  have hold : ∀ d dir, (s.setPc call pc).pc d = .waiting dir → s.pc d = .waiting dir := by
    intro d dir hd
    rw [setPc_pc] at hd
    split at hd
    · exact absurd hd (hwaiting dir)
    · exact hd
  refine ⟨h.ownTransfer, ?_, ?_, ?_⟩
  · intro d waited hd
    rw [setPc_pc] at hd
    split at hd
    · rename_i heq
      rw [heq]
      exact hbehind waited hd
    · exact h.behind d waited hd
  · intro owner dir htransfer
    obtain ⟨htoken, hwait⟩ := h.transfer owner dir htransfer
    exact ⟨htoken, fun d hd => hwait d (hold d dir hd)⟩
  · intro owner dir htoken d hd
    exact h.token owner dir htoken d (hold d dir hd)

theorem Inv.finish (h : Inv s) {err : BspError} {waited : Option Nat}
    (hown : err = .none → waited = some call) : Inv (finish s call err waited) := by
  have hidle : Inv (s.setPc call .idle) := h.setPc nofun nofun
  refine ⟨?_, hidle.behind, hidle.transfer, hidle.token⟩
  intro r hr herr
  rcases List.mem_cons.mp hr with rfl | hr
  · exact hown herr
  · exact h.ownTransfer r hr herr

theorem Inv.enter (h : Inv s) (dir : Direction) (inst : UInt32) : Inv (enter s dir inst) := by
  have hcalled : Inv { s with calls := s.calls + 1 } := ⟨h.ownTransfer, h.behind, h.transfer, h.token⟩
  unfold Transfer.enter
  dsimp only
  split
  · exact hcalled.finish nofun
  · exact hcalled.setPc nofun nofun

theorem Inv.start (h : Inv s) (hbegun : Begun s) {accepted : Bool}
    (hclear : accepted = true → ClearAt s (.before dir)) : Inv (start s call dir accepted) := by
  unfold Transfer.start
  split
  · rename_i htransfer
    obtain ⟨htoken, hnone⟩ := hclear rfl htransfer
    have hsole : ∀ d, (s.setPc call (.waiting dir)).pc d = .waiting dir → d = call := by
      intro d hd
      rw [setPc_pc] at hd
      split at hd
      · assumption
      · by_cases hlt : d < s.calls
        · exact absurd hd (hnone d hlt)
        · rw [hbegun.calls d (Nat.le_of_not_lt hlt)] at hd
          cases hd
    refine ⟨h.ownTransfer, ?_, ?_, ?_⟩
    · intro d waited hd
      have hd : (s.setPc call (.waiting dir)).pc d = .behind .none waited := hd
      rw [setPc_pc] at hd
      split at hd
      · cases hd
      · exact h.behind d waited hd
    · intro owner other hstarted
      cases hstarted
      exact ⟨htoken, hsole⟩
    · intro owner other hother d hd
      have hd : (s.setPc call (.waiting dir)).pc d = .waiting other := hd
      rw [setPc_pc] at hd
      split at hd
      · cases hd
        exact absurd (htoken.symm.trans hother) nofun
      · exact h.token owner other hother d hd
  · exact h.finish nofun

theorem Inv.release (h : Inv s) (hwait : ∀ d, s.pc d = .waiting dir → d = call) :
    Inv (release { s with transfer := .none } dir call) := by
  unfold Transfer.release
  split
  · refine ⟨h.ownTransfer, h.behind, nofun, ?_⟩
    intro owner other hother d hd
    rcases released_token hother with ⟨rfl, rfl⟩ | hother
    · exact hwait d hd
    · exact h.token owner other hother d hd
  · exact ⟨h.ownTransfer, h.behind, nofun, h.token⟩

theorem Inv.acquire (h : Inv s) {owner : Nat} (hpc : s.pc call = .waiting dir)
    (htoken : s.token dir = some owner) :
    Inv { s.setPc call (.behind .none (some owner)) with token := Function.update s.token dir .none } := by
  have hbehind : Inv (s.setPc call (.behind .none (some owner))) := by
    refine h.setPc nofun fun waited hwaited => ?_
    cases hwaited
    rw [h.token owner dir htoken call hpc]
  refine ⟨h.ownTransfer, hbehind.behind, ?_, fun owner other hother =>
    hbehind.token owner other (taken_token hother)⟩
  intro owner other htransfer
  obtain ⟨hnone, hwait⟩ := hbehind.transfer owner other htransfer
  refine ⟨?_, hwait⟩
  show Function.update s.token dir .none other = .none
  rw [Function.update_apply]
  split
  · rfl
  · exact hnone

theorem Inv.step (h : Inv s) (hbegun : Begun s) {e : Event} (hok : Clear s e)
    (hstep : Transfer.step s e = some t) : Inv t := by
  have hcases := step_cases hstep
  cases e with
  | readBlocksDMA inst =>
      cases hcases
      exact h.enter .rx inst
  | writeBlocksDMA inst =>
      cases hcases
      exact h.enter .tx inst
  | start call accepted =>
      obtain ⟨dir, hpc, rfl⟩ := hcases
      refine h.start hbegun fun haccepted => ?_
      rw [haccepted] at hok
      rw [← hpc]
      exact hok
  | complete =>
      obtain ⟨call, dir, htransfer, rfl⟩ := hcases
      exact h.release (h.transfer call dir htransfer).2
  | error =>
      cases hcases
      exact ⟨h.ownTransfer, h.behind, nofun, h.token⟩
  | acquire call =>
      obtain ⟨dir, owner, hpc, htoken, rfl⟩ := hcases
      exact h.acquire hpc htoken
  | timeout call =>
      obtain ⟨dir, hpc, rfl⟩ := hcases
      exact h.setPc nofun nofun
  | cardReady call =>
      obtain ⟨err, waited, hpc, rfl⟩ := hcases
      refine h.finish fun herr => ?_
      rw [herr] at hpc
      exact h.behind call waited hpc

-- No call goes back before its start.
theorem Begun.setPc (h : Begun s) (pc : Pc) (hcall : call < s.calls) (hbefore : ∀ dir, pc ≠ .before dir) :
    Begun (s.setPc call pc) := by
  have hpast : ∀ owner, (∀ d, s.pc owner ≠ .before d) → ∀ d, (s.setPc call pc).pc owner ≠ .before d := by
    intro owner howner d
    rw [setPc_pc]
    split
    · exact hbefore d
    · exact howner d
  refine ⟨?_, ?_, ?_⟩
  · intro d hd
    rw [setPc_pc, if_neg (Nat.ne_of_gt (Nat.lt_of_lt_of_le hcall hd))]
    exact h.calls d hd
  · intro owner dir htransfer
    exact ⟨(h.transfer owner dir htransfer).1, hpast owner (h.transfer owner dir htransfer).2⟩
  · intro owner dir htoken
    exact ⟨(h.token owner dir htoken).1, hpast owner (h.token owner dir htoken).2⟩

theorem Begun.enter (h : Begun s) (dir : Direction) (inst : UInt32) : Begun (enter s dir inst) := by
  -- The new call takes the first free number, so nothing belongs to it yet.
  have hnew : ∀ pc returns, Begun { s.setPc s.calls pc with calls := s.calls + 1, returns } := by
    intro pc returns
    have hold : ∀ owner, owner < s.calls → (∀ d, s.pc owner ≠ .before d) →
        owner < s.calls + 1 ∧ ∀ d, (s.setPc s.calls pc).pc owner ≠ .before d := by
      intro owner howner hpast
      refine ⟨Nat.lt_succ_of_lt howner, fun d => ?_⟩
      rw [setPc_pc, if_neg (Nat.ne_of_lt howner)]
      exact hpast d
    refine ⟨?_, ?_, ?_⟩
    · intro d hd
      have hd : s.calls + 1 ≤ d := hd
      show (s.setPc s.calls pc).pc d = .idle
      rw [setPc_pc, if_neg (by omega)]
      exact h.calls d (by omega)
    · intro owner other htransfer
      exact hold owner (h.transfer owner other htransfer).1 (h.transfer owner other htransfer).2
    · intro owner other htoken
      exact hold owner (h.token owner other htoken).1 (h.token owner other htoken).2
  unfold Transfer.enter
  dsimp only
  split
  · exact hnew _ _
  · exact hnew _ _

theorem Begun.lt_calls (h : Begun s) {pc : Pc} (hpc : s.pc call = pc) (hne : pc ≠ .idle) :
    call < s.calls := by
  by_contra hlt
  exact hne (hpc.symm.trans (h.calls call (Nat.le_of_not_lt hlt)))

theorem Begun.finish (h : Begun s) {err : BspError} {waited : Option Nat} (hcall : call < s.calls) :
    Begun (finish s call err waited) :=
  have hidle := h.setPc .idle hcall nofun
  ⟨hidle.calls, hidle.transfer, hidle.token⟩

theorem Begun.start (h : Begun s) (hpc : s.pc call = .before dir) (accepted : Bool) :
    Begun (start s call dir accepted) := by
  have hcall := h.lt_calls hpc nofun
  unfold Transfer.start
  split
  · have hwaiting := h.setPc (.waiting dir) hcall nofun
    refine ⟨hwaiting.calls, ?_, hwaiting.token⟩
    intro owner other hstarted
    cases hstarted
    refine ⟨hcall, fun d => ?_⟩
    show (s.setPc call (.waiting dir)).pc call ≠ .before d
    rw [setPc_pc, if_pos rfl]
    nofun
  · exact h.finish hcall

theorem Begun.release (h : Begun s) (htransfer : s.transfer = some (call, dir)) :
    Begun (release { s with transfer := .none } dir call) := by
  unfold Transfer.release
  split
  · refine ⟨h.calls, nofun, ?_⟩
    intro owner other hother
    rcases released_token hother with ⟨rfl, rfl⟩ | hother
    · exact h.transfer owner other htransfer
    · exact h.token owner other hother
  · exact ⟨h.calls, nofun, h.token⟩

theorem Begun.step (h : Begun s) {e : Event} (hstep : Transfer.step s e = some t) : Begun t := by
  have hcases := step_cases hstep
  cases e with
  | readBlocksDMA inst =>
      cases hcases
      exact h.enter .rx inst
  | writeBlocksDMA inst =>
      cases hcases
      exact h.enter .tx inst
  | start call accepted =>
      obtain ⟨dir, hpc, rfl⟩ := hcases
      exact h.start hpc accepted
  | complete =>
      obtain ⟨call, dir, htransfer, rfl⟩ := hcases
      exact h.release htransfer
  | error =>
      cases hcases
      exact ⟨h.calls, nofun, h.token⟩
  | acquire call =>
      obtain ⟨dir, owner, hpc, htoken, rfl⟩ := hcases
      have hbehind := h.setPc (.behind .none (some owner)) (h.lt_calls hpc nofun) nofun
      exact ⟨hbehind.calls, hbehind.transfer, fun holder other hother =>
        hbehind.token holder other (taken_token hother)⟩
  | timeout call =>
      obtain ⟨dir, hpc, rfl⟩ := hcases
      exact h.setPc _ (h.lt_calls hpc nofun) nofun
  | cardReady call =>
      obtain ⟨err, waited, hpc, rfl⟩ := hcases
      exact h.finish (h.lt_calls hpc nofun)

theorem begun_of_reachable (hs : system.Reachable s) : Begun s := by
  refine hs.invariant (P := Begun) ?_ fun s e t h _ hstep => h.step hstep
  rintro s rfl
  exact ⟨fun _ _ => rfl, nofun, nofun⟩

theorem inv_of_reachable (hs : system.ReachableBy Clear s) : Inv s := by
  have hboth : Inv s ∧ Begun s := by
    refine hs.invariant (P := fun s => Inv s ∧ Begun s) ?_
      fun s e t ⟨hinv, h⟩ hok hstep => ⟨hinv.step h hok hstep, h.step hstep⟩
    rintro s rfl
    exact ⟨⟨nofun, nofun, nofun, nofun⟩, fun _ _ => rfl, nofun, nofun⟩
  exact hboth.1

def Breaks (s : State) : Prop := ∃ labels t, system.run s labels = some t ∧ ¬OwnTransfer t

theorem Breaks.next {e : Event} (hstep : step s e = some t) (h : Breaks t) : Breaks s := by
  obtain ⟨labels, u, hrun, hbroken⟩ := h
  exact ⟨e :: labels, u, by rw [Transition.System.run, show system.step s e = some t from hstep]; exact hrun,
    hbroken⟩

-- The call that takes another one's token returns as if it were its own.
theorem breaks_of_token (hpc : s.pc call = .waiting dir) {owner : Nat} (htoken : s.token dir = some owner)
    (hne : owner ≠ call) : Breaks s := by
  have hacquire : step s (.acquire call) =
      some { s.setPc call (.behind .none (some owner)) with token := Function.update s.token dir .none } := by
    simp only [step, acquire, hpc, htoken]
  refine .next hacquire ?_
  have hbehind : ∀ u : State, u.pc call = .behind .none (some owner) → Breaks u := by
    intro u hu
    have hready : step u (.cardReady call) = some (finish u call .none (some owner)) := by
      simp only [step, cardReady, hu]
    refine .next hready ⟨[], _, rfl, fun hown => hne ?_⟩
    exact Option.some.inj (hown ⟨call, .none, some owner⟩ List.mem_cons_self rfl)
  refine hbehind _ ?_
  show (s.setPc call (.behind .none (some owner))).pc call = _
  rw [setPc_pc, if_pos rfl]

-- A start that finds a token takes it; one that finds another call at the
-- semaphore leaves its own token to that call.
theorem Begun.breaks_start (h : Begun s) (hpc : s.pc call = .before dir)
    (hbad : ¬ClearAt s (.before dir)) : Breaks (Transfer.start s call dir true) := by
  obtain ⟨htransfer, hbad⟩ := Classical.not_imp.mp hbad
  have hstart : Transfer.start s call dir true =
      { s.setPc call (.waiting dir) with transfer := some (call, dir) } := by
    simp only [Transfer.start, htransfer]
  have hwaiting : (Transfer.start s call dir true).pc call = .waiting dir := by
    rw [hstart]
    show (s.setPc call (.waiting dir)).pc call = _
    rw [setPc_pc, if_pos rfl]
  cases htoken : s.token dir with
  | some owner =>
      have hstale : (Transfer.start s call dir true).token dir = some owner := by
        rw [hstart]
        exact htoken
      refine breaks_of_token hwaiting hstale fun heq => ?_
      exact (h.token owner dir htoken).2 dir (heq ▸ hpc)
  | none =>
      have hother : ∃ d, d ≠ call ∧ s.pc d = .waiting dir := by
        by_contra hnone
        refine hbad ⟨htoken, fun d _ hd => hnone ⟨d, fun heq => ?_, hd⟩⟩
        rw [heq, hpc] at hd
        cases hd
      obtain ⟨d, hne, hd⟩ := hother
      have hcomplete : Transfer.step (Transfer.start s call dir true) .complete =
          some { s.setPc call (.waiting dir) with
            transfer := .none, token := Function.update s.token dir (some call) } := by
        rw [hstart]
        cases dir <;>
          simp only [Transfer.step, complete, cpltCallback, bspSdReadCpltCallback, bspSdWriteCpltCallback,
            Transfer.release, State.setPc, htoken]
      have hstill : (s.setPc call (.waiting dir)).pc d = .waiting dir := by
        rw [setPc_pc, if_neg hne]
        exact hd
      have hreleased : Function.update s.token dir (some call) dir = some call :=
        Function.update_self dir (some call) s.token
      exact .next hcomplete (breaks_of_token hstill hreleased (Ne.symm hne))

theorem Begun.breaks (h : Begun s) {e : Event} (hbad : ¬Clear s e) (hstep : Transfer.step s e = some t) :
    Breaks t := by
  have hcases := step_cases hstep
  cases e with
  | start call accepted =>
      obtain ⟨dir, hpc, rfl⟩ := hcases
      cases accepted with
      | false => exact absurd trivial hbad
      | true =>
          refine h.breaks_start hpc fun hclear => hbad ?_
          rw [← hpc] at hclear
          exact hclear
  | readBlocksDMA | writeBlocksDMA | complete | error | acquire | timeout | cardReady =>
      exact absurd trivial hbad

-- In a run in which every transfer is started with its semaphore empty and nobody
-- at it, the success of a call stands for its own transfer; any other start can
-- be continued to a call that returns on the completion of another one.
theorem waits_for_own_transfer (hs : system.ReachableBy Clear s) :
    OwnTransfer s ∧ ∀ e t, ¬Clear s e → system.step s e = some t → Breaks t :=
  ⟨(inv_of_reachable hs).ownTransfer,
    fun _ _ hbad hstep => (begun_of_reachable (hs.mono fun _ _ _ => trivial)).breaks hbad hstep⟩

-- The first read times out and is completed while it still waits for the card.
-- The second one finds its token, and leaves its own behind.
theorem late_completion_serves_next_read : ¬∀ s, system.Reachable s → OwnTransfer s := by
  intro h
  have hown := h _ (.get system (fun _ _ => True)
    [.readBlocksDMA 0, .start 0 true, .timeout 0, .complete, .cardReady 0,
      .readBlocksDMA 0, .start 1 true, .acquire 1, .complete, .cardReady 1]
    (s := initial) rfl (by decide))
  have hwaited := hown ⟨1, .none, some 0⟩ List.mem_cons_self rfl
  cases hwaited

theorem waits_for_own_transfer_run :
    ∃ s : State, s.returns.map Return.err = [.none, .periphFailure, .none] ∧ OwnTransfer s :=
  have hreach := Transition.System.ReachableBy.get system Clear
    [.writeBlocksDMA 0, .start 0 true, .complete, .acquire 0, .cardReady 0,
      .readBlocksDMA 0, .start 1 true, .timeout 1, .error, .cardReady 1,
      .readBlocksDMA 0, .start 2 true, .complete, .acquire 2, .cardReady 2]
    (s := initial) rfl (by decide)
  ⟨_, rfl, (waits_for_own_transfer hreach).1⟩

end Transfer

end SdCard

end Carbon
