import Carbon.Library.Transition
import Carbon.Word

namespace Carbon

namespace Irq

-- Where a context stands in lockRecursive or unLockRecursive. The copies are of
-- PRIMASK, as isLocked returned it, and of irqLockCounter.
inductive Point
  | idle
  | sampled (startStatus : Bool)
  | disabled (startStatus : Bool)
  | loaded (startStatus : Bool) (counter : Nat)
  | counted (startStatus : Bool) (counter : Nat)
  | tested
  | unloaded (counter : Nat)
  | discounted (counter : Nat)
  | unlocking
  deriving DecidableEq

inductive Call
  | lockRecursive
  | unLockRecursive
  deriving DecidableEq

-- The thread or a handler. The code has `point`; the rest is the history of the calls:
-- the one that has not returned, the locks that have returned less the unlocks that have
-- (surplus ones not counted), and PRIMASK as it was when the outermost lock was called.
structure Context where
  point : Point
  call : Option Call
  depth : Nat
  before : Bool
  deriving DecidableEq

-- One core: `current` runs, and it has interrupted the first of `interrupted`,
-- this one the next; the thread is the last.
structure State where
  primask : Bool
  irqLockCounter : Nat
  irqLockStartStatus : Bool
  current : Context
  interrupted : List Context
  deriving DecidableEq

def State.goto (s : State) (point : Point) : State := { s with current := { s.current with point } }

-- The first access of a call: isLocked, or the test of the counter.
def lockStep (s : State) : Option State :=
  match s.current.point with
  | .idle => some (s.goto (.sampled s.primask))
  | _ => none

def unlockStep (s : State) : Option State :=
  match s.current.point with
  | .idle => some (if s.irqLockCounter ≠ 0 then s.goto .tested else s)
  | _ => none

-- The accesses that follow, one at a time.
def advanceStep (s : State) : Option State :=
  match s.current.point with
  | .idle => none
  | .sampled startStatus => some { s.goto (.disabled startStatus) with primask := true }
  | .disabled startStatus => some (s.goto (.loaded startStatus s.irqLockCounter))
  | .loaded startStatus counter =>
      some { s.goto (.counted startStatus (uint32 (counter + 1))) with irqLockCounter := uint32 (counter + 1) }
  | .counted startStatus counter =>
      some { s.goto .idle with
        irqLockStartStatus := if counter = 1 then startStatus else s.irqLockStartStatus }
  | .tested => some (s.goto (.unloaded s.irqLockCounter))
  | .unloaded counter =>
      some { s.goto (.discounted (uint32Sub counter 1)) with irqLockCounter := uint32Sub counter 1 }
  | .discounted counter =>
      some (s.goto (if counter = 0 ∧ s.irqLockStartStatus = false then .unlocking else .idle))
  | .unlocking => some { s.goto .idle with primask := false }

-- The history of a context: a call is made,
def Context.calling (context : Context) (call : Call) (primask : Bool) : Context :=
  { context with
    call := some call
    before := if call = .lockRecursive ∧ context.depth = 0 then primask else context.before }

-- and has returned once the code has come to its end.
def Context.noted (context : Context) : Context :=
  match context.point, context.call with
  | .idle, some .lockRecursive => { context with call := none, depth := context.depth + 1 }
  | .idle, some .unLockRecursive => { context with call := none, depth := context.depth - 1 }
  | _, _ => context

def State.calling (s : State) (call : Call) : State :=
  { s with current := s.current.calling call s.primask }

def State.noted (s : State) : State := { s with current := s.current.noted }

-- A handler may start wherever PRIMASK is clear, and returns from a balanced
-- sequence. Outside its locks the thread may set and clear PRIMASK itself.
inductive Event
  | lockRecursive
  | unLockRecursive
  | advance
  | deliver
  | leave
  | setPrimask (value : Bool)

def step (s : State) : Event → Option State
  | .lockRecursive => (lockStep (s.calling .lockRecursive)).map State.noted
  | .unLockRecursive => (unlockStep (s.calling .unLockRecursive)).map State.noted
  | .advance => (advanceStep s).map State.noted
  | .deliver =>
      if s.primask = false then
        some { s with current := ⟨.idle, none, 0, s.primask⟩, interrupted := s.current :: s.interrupted }
      else none
  | .leave =>
      match s.interrupted with
      | [] => none
      | context :: rest =>
          if s.current.point = .idle ∧ s.current.depth = 0 then
            some { s with current := context, interrupted := rest }
          else none
  | .setPrimask value =>
      if s.interrupted = [] ∧ s.current.point = .idle ∧ s.current.depth = 0 then
        some { s with primask := value, current := { s.current with before := value } }
      else none

-- The thread starts outside any lock, with PRIMASK as it may be.
def system : Transition.System State Event where
  initial s := s.irqLockCounter = 0 ∧ s.irqLockStartStatus = false ∧ s.interrupted = [] ∧
    s.current = ⟨.idle, none, 0, s.primask⟩
  step := step

-- The nesting stays below 2 ^ 32.
def Nested (s : State) : Event → Prop
  | .lockRecursive => s.current.depth + 1 < 2 ^ 32
  | _ => True

instance (s : State) : DecidablePred (Nested s)
  | .lockRecursive => inferInstanceAs (Decidable (s.current.depth + 1 < 2 ^ 32))
  | .unLockRecursive | .advance | .deliver | .leave | .setPrimask _ => isTrue trivial

-- Steps of the context alone, with no handler in between.
def advances : Nat → State → Option State
  | 0, s => some s
  | n + 1, s => (step s .advance).bind (advances n)

-- From __disable_irq of the outermost lock to the end of its matching unlock.
def Context.Inside (context : Context) : Prop :=
  0 < context.depth ∨ match context.point with
    | .disabled _ | .loaded _ _ | .counted _ _ => True
    | _ => False

-- The unlock that matches the outermost lock returns, with PRIMASK as it was before that.
def MatchingUnlock (s : State) : Prop :=
  ∃ t n u, step s .unLockRecursive = some t ∧ advances n t = some u ∧
    u.current = { s.current with depth := 0 } ∧ u.primask = s.current.before

-- Masking is exact: a context is masked inside its locks and nothing has
-- interrupted it there, outside it finds PRIMASK as it was before them, a surplus
-- unlock is no step at all, and a call that has begun returns in a few steps.
structure Exact (s : State) : Prop where
  masked : s.current.Inside → s.primask = true
  uninterrupted : ∀ context ∈ s.interrupted, ¬context.Inside
  restored : ¬s.current.Inside → s.primask = s.current.before
  unlock : s.current.point = .idle → s.current.depth = 1 → MatchingUnlock s
  surplus : s.current.point = .idle → s.current.depth = 0 → step s .unLockRecursive = some s
  returns : ∃ n ≤ 4, ∃ t, advances n s = some t ∧ t.current.point = .idle ∧ t.current.call = none

variable {s t : State}

def Point.call : Point → Option Call
  | .idle => none
  | .sampled _ | .disabled _ | .loaded _ _ | .counted _ _ => some .lockRecursive
  | .tested | .unloaded _ | .discounted _ | .unlocking => some .unLockRecursive

-- A step that does not end the call, and one that does.
theorem State.noted_inside (h : s.current.point ≠ .idle) : s.noted = s := by
  unfold State.noted Context.noted
  split
  · exact absurd ‹_› h
  · exact absurd ‹_› h
  · rfl

def State.locked (s : State) : State :=
  { s with current := { s.current with point := .idle, call := none, depth := s.current.depth + 1 } }

def State.unlocked (s : State) : State :=
  { s with current := { s.current with point := .idle, call := none, depth := s.current.depth - 1 } }

theorem State.noted_locked (h : s.current.call = some .lockRecursive) : (s.goto .idle).noted = s.locked := by
  unfold State.noted Context.noted State.goto State.locked
  simp only [h]

theorem State.noted_unlocked (h : s.current.call = some .unLockRecursive) :
    (s.goto .idle).noted = s.unlocked := by
  unfold State.noted Context.noted State.goto State.unlocked
  simp only [h]

-- Between two calls, and inside one with or without the lock. The saved status is
-- the one from before the outermost lock as soon as it has been taken.
structure Resting (s : State) : Prop where
  counter : s.irqLockCounter = s.current.depth
  primask : s.primask = (s.current.before || decide (0 < s.current.depth))
  saved : 0 < s.current.depth → s.irqLockStartStatus = s.current.before

structure Locking (s : State) (startStatus : Bool) (counter : Nat) : Prop where
  primask : s.primask = true
  counter : s.irqLockCounter = counter
  saved : (if s.current.depth = 0 then startStatus else s.irqLockStartStatus) = s.current.before
  room : s.current.depth + 1 < 2 ^ 32

structure Holding (s : State) (counter : Nat) : Prop where
  primask : s.primask = true
  counter : s.irqLockCounter = counter
  depth : 0 < s.current.depth
  saved : s.irqLockStartStatus = s.current.before

def Consistent (s : State) : Prop :=
  match s.current.point with
  | .idle => Resting s
  | .sampled startStatus => Resting s ∧ startStatus = s.primask ∧ s.current.depth + 1 < 2 ^ 32
  | .disabled startStatus => Locking s startStatus s.current.depth
  | .loaded startStatus counter => Locking s startStatus s.current.depth ∧ counter = s.current.depth
  | .counted startStatus counter =>
      Locking s startStatus (s.current.depth + 1) ∧ counter = s.current.depth + 1
  | .tested => Holding s s.current.depth
  | .unloaded counter => Holding s s.current.depth ∧ counter = s.current.depth
  | .discounted counter => Holding s (s.current.depth - 1) ∧ counter = s.current.depth - 1
  | .unlocking => Holding s 0 ∧ s.current.depth = 1 ∧ s.current.before = false

-- Only a context outside its locks, with PRIMASK clear, is ever interrupted.
structure Suspended (context : Context) : Prop where
  point : context.point = .idle ∨ context.point = .sampled false
  call : context.call = context.point.call
  depth : context.depth = 0
  before : context.before = false

structure Inv (s : State) : Prop where
  consistent : Consistent s
  call : s.current.call = s.current.point.call
  depth : s.current.depth < 2 ^ 32
  suspended : ∀ context ∈ s.interrupted, Suspended context
  clear : s.interrupted ≠ [] → s.current.before = false

theorem Consistent.idle (h : Consistent s) (hpoint : s.current.point = .idle) : Resting s := by
  unfold Consistent at h
  rwa [hpoint] at h

theorem Resting.primask_out (h : Resting s) (hdepth : s.current.depth = 0) : s.primask = s.current.before := by
  rw [h.primask, hdepth]
  exact Bool.or_false _

-- With PRIMASK clear the context is at one of the two points before __disable_irq,
-- outside its locks.
theorem Inv.suspend (h : Inv s) (hclear : s.primask = false) : Suspended s.current := by
  have hrest : Resting s → s.current.before = false ∧ s.current.depth = 0 := by
    intro hrest
    have hprimask := hrest.primask.symm.trans hclear
    rw [Bool.or_eq_false_iff, decide_eq_false_iff_not] at hprimask
    exact ⟨hprimask.1, by omega⟩
  have hmask : s.primask ≠ true := by rw [hclear]; exact Bool.false_ne_true
  have hcon := h.consistent
  unfold Consistent at hcon
  cases hpoint : s.current.point with
  | idle =>
      rw [hpoint] at hcon
      exact ⟨.inl hpoint, h.call, (hrest hcon).2, (hrest hcon).1⟩
  | sampled startStatus =>
      rw [hpoint] at hcon
      obtain ⟨hres, hsample, _⟩ := hcon
      rw [hclear] at hsample
      exact ⟨.inr (hsample ▸ hpoint), h.call, (hrest hres).2, (hrest hres).1⟩
  | disabled | tested => rw [hpoint] at hcon; exact absurd hcon.primask hmask
  | loaded | counted | unloaded | discounted | unlocking =>
      rw [hpoint] at hcon
      exact absurd hcon.1.primask hmask

theorem Inv.noted (h : Inv s) (hpoint : s.current.point ≠ .idle) : Inv s.noted := by
  rw [State.noted_inside hpoint]
  exact h

-- A step that neither enters nor leaves a handler.
theorem Inv.stay (h : Inv s) (hconsistent : Consistent t) (hcall : t.current.call = t.current.point.call)
    (hdepth : t.current.depth < 2 ^ 32) (hbefore : t.current.before = s.current.before)
    (hinterrupted : t.interrupted = s.interrupted) : Inv t := by
  refine ⟨hconsistent, hcall, hdepth, ?_, ?_⟩
  · rw [hinterrupted]
    exact h.suspended
  · rw [hinterrupted, hbefore]
    exact h.clear

theorem Inv.deliver (h : Inv s) (hstep : step s .deliver = some t) : Inv t := by
  obtain ⟨hclear, hstep⟩ := Option.ite_none_right_eq_some.mp hstep
  cases hstep
  have hsuspend := h.suspend hclear
  have hcounter : s.irqLockCounter = 0 := by
    rw [← hsuspend.depth]
    have hcon := h.consistent
    unfold Consistent at hcon
    rcases hsuspend.point with hpoint | hpoint <;> rw [hpoint] at hcon
    · exact hcon.counter
    · exact hcon.1.counter
  have hrest : Resting { s with
      current := ⟨.idle, none, 0, s.primask⟩, interrupted := s.current :: s.interrupted } :=
    ⟨hcounter, (Bool.or_false _).symm, fun hpos => absurd hpos (Nat.lt_irrefl 0)⟩
  exact ⟨hrest, rfl, Nat.two_pow_pos 32, List.forall_mem_cons.mpr ⟨hsuspend, h.suspended⟩, fun _ => hclear⟩

theorem Inv.leave (h : Inv s) (hstep : step s .leave = some t) : Inv t := by
  unfold step at hstep
  dsimp only at hstep
  cases hinterrupted : s.interrupted with
  | nil =>
      rw [hinterrupted] at hstep
      cases hstep
  | cons context rest =>
      rw [hinterrupted] at hstep
      obtain ⟨⟨hpoint, hdepth⟩, hstep⟩ := Option.ite_none_right_eq_some.mp hstep
      cases hstep
      have hres := h.consistent.idle hpoint
      have hsuspended := h.suspended
      rw [hinterrupted] at hsuspended
      obtain ⟨hcontext, hothers⟩ := List.forall_mem_cons.mp hsuspended
      have hclear : s.primask = false :=
        (hres.primask_out hdepth).trans (h.clear (by rw [hinterrupted]; exact List.cons_ne_nil _ _))
      have hrest : Resting { s with current := context, interrupted := rest } := by
        refine ⟨?_, ?_, ?_⟩
        · exact (hres.counter.trans hdepth).trans hcontext.depth.symm
        · show s.primask = (context.before || decide (0 < context.depth))
          rw [hclear, hcontext.before, hcontext.depth]
          rfl
        · intro hpos
          exact absurd hcontext.depth (Nat.ne_of_gt hpos)
      refine ⟨?_, hcontext.call, by show context.depth < 2 ^ 32; rw [hcontext.depth]; decide, hothers,
        fun _ => hcontext.before⟩
      unfold Consistent
      dsimp only
      rcases hcontext.point with hat | hat <;> rw [hat]
      · exact hrest
      · exact ⟨hrest, hclear.symm, by show context.depth + 1 < 2 ^ 32; rw [hcontext.depth]; decide⟩

theorem Inv.setPrimask (h : Inv s) {value : Bool} (hstep : step s (.setPrimask value) = some t) : Inv t := by
  obtain ⟨⟨hinterrupted, hpoint, hdepth⟩, hstep⟩ := Option.ite_none_right_eq_some.mp hstep
  cases hstep
  have hres := h.consistent.idle hpoint
  refine ⟨?_, h.call, h.depth, h.suspended, fun hne => absurd hinterrupted hne⟩
  unfold Consistent
  dsimp only
  rw [hpoint]
  refine ⟨hres.counter, ?_, fun hpos => absurd hdepth (Nat.ne_of_gt hpos)⟩
  show value = (value || decide (0 < s.current.depth))
  rw [hdepth]
  exact (Bool.or_false _).symm

theorem Resting.calling (h : Resting s) : s.current.calling .lockRecursive s.primask =
    { s.current with call := some .lockRecursive } := by
  have hbefore : (if Call.lockRecursive = .lockRecursive ∧ s.current.depth = 0 then s.primask
      else s.current.before) = s.current.before := by
    split
    · rename_i houter
      exact h.primask_out houter.2
    · rfl
  unfold Context.calling
  rw [hbefore]

theorem Inv.lock (h : Inv s) (hroom : s.current.depth + 1 < 2 ^ 32)
    (hstep : step s .lockRecursive = some t) : Inv t := by
  cases hpoint : s.current.point with
  | idle =>
      have hres := h.consistent.idle hpoint
      simp only [step, lockStep, State.calling, hres.calling, hpoint, Option.map_some] at hstep
      cases hstep
      exact .noted (h.stay ⟨⟨hres.counter, hres.primask, hres.saved⟩, rfl, hroom⟩ rfl h.depth rfl rfl) nofun
  | _ =>
      simp only [step, lockStep, State.calling, Context.calling, hpoint, Option.map_none, reduceCtorEq] at hstep

-- With nothing held the test of the counter fails, and nothing is written.
theorem Inv.unlock_out (h : Inv s) (hpoint : s.current.point = .idle) (hdepth : s.current.depth = 0) :
    step s .unLockRecursive = some s := by
  have hcounter := (h.consistent.idle hpoint).counter
  have hcall := h.call
  obtain ⟨primask, counter, startStatus, ⟨point, call, depth, before⟩, interrupted⟩ := s
  cases hpoint
  cases hdepth
  cases hcall
  obtain rfl : counter = 0 := hcounter
  rfl

theorem Inv.unlock (h : Inv s) (hstep : step s .unLockRecursive = some t) : Inv t := by
  cases hpoint : s.current.point with
  | idle =>
      by_cases hdepth : s.current.depth = 0
      · rw [h.unlock_out hpoint hdepth] at hstep
        cases hstep
        exact h
      · have hres := h.consistent.idle hpoint
        have hpos : 0 < s.current.depth := Nat.pos_of_ne_zero hdepth
        have hheld : s.irqLockCounter ≠ 0 := by rw [hres.counter]; exact hdepth
        simp only [step, unlockStep, State.calling, Context.calling, hpoint, if_pos hheld, Option.map_some] at hstep
        cases hstep
        have hmasked : s.primask = true := by
          rw [hres.primask, decide_eq_true hpos]
          exact Bool.or_true _
        have hhold : Holding (s.goto .tested) s.current.depth := ⟨hmasked, hres.counter, hpos, hres.saved hpos⟩
        exact .noted (h.stay ⟨hhold.primask, hhold.counter, hhold.depth, hhold.saved⟩ rfl h.depth rfl rfl) nofun
  | _ =>
      simp only [step, unlockStep, State.calling, Context.calling, hpoint, Option.map_none, reduceCtorEq] at hstep

-- __disable_irq: what the call sampled stays the status to save.
theorem Resting.disable (h : Resting s) {startStatus : Bool} (hsample : startStatus = s.primask)
    (hroom : s.current.depth + 1 < 2 ^ 32) :
    Locking { s.goto (.disabled startStatus) with primask := true } startStatus s.current.depth := by
  refine ⟨rfl, h.counter, ?_, hroom⟩
  show (if s.current.depth = 0 then startStatus else s.irqLockStartStatus) = s.current.before
  split
  · exact hsample.trans (h.primask_out ‹_›)
  · exact h.saved (Nat.pos_of_ne_zero ‹_›)

-- The end of lockRecursive, where the outermost lock saves the status.
theorem Locking.locked {startStatus : Bool} (h : Locking s startStatus (s.current.depth + 1)) :
    Resting { s.locked with
      irqLockStartStatus := if s.current.depth + 1 = 1 then startStatus else s.irqLockStartStatus } := by
  refine ⟨h.counter, ?_, fun _ => ?_⟩
  · show s.primask = (s.current.before || decide (0 < s.current.depth + 1))
    rw [h.primask]
    simp
  · show (if s.current.depth + 1 = 1 then startStatus else s.irqLockStartStatus) = s.current.before
    have hsaved := h.saved
    simpa using hsaved

-- The unlock that leaves PRIMASK alone: not the outermost one, or masked before it.
theorem Holding.unlocked (h : Holding s (s.current.depth - 1))
    (hmore : ¬(s.current.depth - 1 = 0 ∧ s.irqLockStartStatus = false)) : Resting s.unlocked := by
  refine ⟨h.counter, ?_, fun _ => h.saved⟩
  show s.primask = (s.current.before || decide (0 < s.current.depth - 1))
  rw [h.primask, ← h.saved]
  by_cases hzero : s.current.depth - 1 = 0
  · have hset : s.irqLockStartStatus = true :=
      (Bool.not_eq_false _).mp fun hclear => hmore ⟨hzero, hclear⟩
    rw [hset]
    rfl
  · rw [decide_eq_true (Nat.pos_of_ne_zero hzero)]
    exact (Bool.or_true _).symm

theorem Holding.last (h : Holding s (s.current.depth - 1)) (hlast : s.current.depth - 1 = 0)
    (hclear : s.irqLockStartStatus = false) : Consistent (s.goto .unlocking) := by
  have hpos := h.depth
  have hone : s.current.depth = 1 := by omega
  exact ⟨⟨h.primask, h.counter.trans hlast, hpos, h.saved⟩, hone, h.saved.symm.trans hclear⟩

-- __enable_irq of the outermost unlock.
theorem Holding.enable (h : Holding s 0) (hone : s.current.depth = 1) (hclear : s.current.before = false) :
    Resting { s.unlocked with primask := false } := by
  refine ⟨?_, ?_, fun _ => h.saved⟩
  · show s.irqLockCounter = s.current.depth - 1
    rw [h.counter, hone]
  · show false = (s.current.before || decide (0 < s.current.depth - 1))
    rw [hclear, hone]
    rfl

theorem Inv.advance (h : Inv s) (hstep : step s .advance = some t) : Inv t := by
  have hcon := h.consistent
  have hcall := h.call
  unfold Consistent at hcon
  obtain ⟨u, hadvance, rfl⟩ := Option.map_eq_some_iff.mp hstep
  unfold advanceStep at hadvance
  have hless : s.current.depth - 1 < 2 ^ 32 := Nat.lt_of_le_of_lt (Nat.sub_le _ _) h.depth
  cases hpoint : s.current.point with
  | idle => rw [hpoint] at hadvance; cases hadvance
  | sampled startStatus =>
      rw [hpoint] at hadvance hcon hcall
      cases hadvance
      obtain ⟨hres, hsample, hroom⟩ := hcon
      exact .noted (h.stay (hres.disable hsample hroom) hcall h.depth rfl rfl) nofun
  | disabled startStatus =>
      rw [hpoint] at hadvance hcon hcall
      cases hadvance
      exact .noted (h.stay ⟨⟨hcon.primask, hcon.counter, hcon.saved, hcon.room⟩, hcon.counter⟩ hcall h.depth rfl rfl) nofun
  | loaded startStatus counter =>
      rw [hpoint] at hadvance hcon hcall
      cases hadvance
      obtain ⟨hlock, rfl⟩ := hcon
      have hcount := uint32_of_lt hlock.room
      exact .noted (h.stay ⟨⟨hlock.primask, hcount, hlock.saved, hlock.room⟩, hcount⟩ hcall h.depth rfl rfl) nofun
  | counted startStatus counter =>
      rw [hpoint] at hadvance hcon hcall
      cases hadvance
      obtain ⟨hlock, rfl⟩ := hcon
      have hend := State.noted_locked (s := { s with
        irqLockStartStatus := if s.current.depth + 1 = 1 then startStatus else s.irqLockStartStatus }) hcall
      exact hend ▸ h.stay hlock.locked rfl hlock.room rfl rfl
  | tested =>
      rw [hpoint] at hadvance hcon hcall
      cases hadvance
      exact .noted (h.stay ⟨⟨hcon.primask, hcon.counter, hcon.depth, hcon.saved⟩, hcon.counter⟩ hcall h.depth rfl rfl) nofun
  | unloaded counter =>
      rw [hpoint] at hadvance hcon hcall
      cases hadvance
      obtain ⟨hhold, rfl⟩ := hcon
      have hcount := uint32Sub_of_le (b := 1) h.depth hhold.depth
      exact .noted (h.stay ⟨⟨hhold.primask, hcount, hhold.depth, hhold.saved⟩, hcount⟩ hcall h.depth rfl rfl) nofun
  | discounted counter =>
      rw [hpoint] at hadvance hcon hcall
      cases hadvance
      obtain ⟨hhold, rfl⟩ := hcon
      split
      · rename_i hlast
        exact .noted (h.stay (hhold.last hlast.1 hlast.2) hcall h.depth rfl rfl) nofun
      · rename_i hmore
        have hrest : Resting s.unlocked := hhold.unlocked hmore
        rw [State.noted_unlocked hcall]
        exact h.stay hrest rfl hless rfl rfl
  | unlocking =>
      rw [hpoint] at hadvance hcon hcall
      cases hadvance
      obtain ⟨hhold, hone, hclear⟩ := hcon
      have hrest : Resting { s.unlocked with primask := false } := hhold.enable hone hclear
      have hend := State.noted_unlocked (s := { s with primask := false }) hcall
      exact hend ▸ h.stay hrest rfl hless rfl rfl

theorem Inv.step (h : Inv s) {e : Event} (hok : Nested s e) (hstep : Irq.step s e = some t) : Inv t := by
  cases e with
  | lockRecursive => exact h.lock hok hstep
  | unLockRecursive => exact h.unlock hstep
  | advance => exact h.advance hstep
  | deliver => exact h.deliver hstep
  | leave => exact h.leave hstep
  | setPrimask value => exact h.setPrimask hstep

theorem inv_initial (h : system.initial s) : Inv s := by
  obtain ⟨hcounter, _, hinterrupted, hcurrent⟩ := h
  obtain ⟨primask, counter, startStatus, current, interrupted⟩ := s
  cases hcounter
  cases hinterrupted
  obtain rfl : current = ⟨.idle, none, 0, primask⟩ := hcurrent
  have hrest : Resting ⟨primask, 0, startStatus, ⟨.idle, none, 0, primask⟩, []⟩ :=
    ⟨rfl, (Bool.or_false _).symm, fun hpos => absurd hpos (Nat.lt_irrefl 0)⟩
  exact ⟨hrest, rfl, Nat.two_pow_pos 32, nofun, fun hne => absurd rfl hne⟩

theorem Suspended.not_inside {context : Context} (h : Suspended context) : ¬context.Inside := by
  unfold Context.Inside
  rw [h.depth]
  rcases h.point with hpoint | hpoint <;> rw [hpoint] <;> simp

-- The steps a call still needs at most.
def Point.left : Point → Nat
  | .idle => 0
  | .sampled _ | .tested => 4
  | .disabled _ | .unloaded _ => 3
  | .loaded _ _ | .discounted _ => 2
  | .counted _ _ | .unlocking => 1

theorem Point.left_le (point : Point) : point.left ≤ 4 := by
  cases point <;> simp [left]

theorem Context.noted_point (context : Context) : context.noted.point = context.point := by
  unfold Context.noted
  split <;> rfl

theorem advance_left (h : s.current.point ≠ .idle) :
    ∃ t, step s .advance = some t ∧ t.current.point.left < s.current.point.left := by
  unfold step advanceStep
  cases hpoint : s.current.point with
  | idle => exact absurd hpoint h
  | discounted counter =>
      refine ⟨_, rfl, ?_⟩
      show ((s.goto _).current.noted.point).left < _
      rw [Context.noted_point]
      show Point.left (if counter = 0 ∧ s.irqLockStartStatus = false then .unlocking else .idle) < 2
      split <;> decide
  | _ =>
      refine ⟨_, rfl, ?_⟩
      show (Context.noted _).point.left < _
      rw [Context.noted_point]
      exact Nat.lt_succ_self _

theorem Inv.returns (h : Inv s) {n : Nat} (hn : s.current.point.left ≤ n) :
    ∃ k ≤ n, ∃ t, advances k s = some t ∧ t.current.point = .idle ∧ t.current.call = none := by
  induction n generalizing s with
  | zero =>
      by_cases hpoint : s.current.point = .idle
      · exact ⟨0, Nat.le_refl _, s, rfl, hpoint, by rw [h.call, hpoint]; rfl⟩
      · obtain ⟨t, _, hleft⟩ := advance_left hpoint
        omega
  | succ n ih =>
      by_cases hpoint : s.current.point = .idle
      · exact ⟨0, Nat.zero_le _, s, rfl, hpoint, by rw [h.call, hpoint]; rfl⟩
      · obtain ⟨t, hstep, hleft⟩ := advance_left hpoint
        obtain ⟨k, hk, u, hrun, hu⟩ := ih (h.advance hstep) (by omega)
        refine ⟨k + 1, Nat.succ_le_succ hk, u, ?_, hu⟩
        unfold advances
        rw [hstep]
        exact hrun

-- Three accesses when interrupts were masked before, and one more that enables them.
theorem Inv.matchingUnlock (h : Inv s) (hpoint : s.current.point = .idle) (hdepth : s.current.depth = 1) :
    MatchingUnlock s := by
  have hres := h.consistent.idle hpoint
  have hcall := h.call
  have hcounter := hres.counter
  have hsaved := hres.saved (by omega)
  have hprimask := hres.primask
  obtain ⟨primask, counter, startStatus, ⟨point, call, depth, before⟩, interrupted⟩ := s
  cases hpoint
  cases hdepth
  cases hcall
  obtain rfl : counter = 1 := hcounter
  obtain rfl : startStatus = before := hsaved
  obtain rfl : primask = true := by simpa using hprimask
  have hless : uint32Sub 1 1 = 0 := by decide
  cases startStatus with
  | true =>
      refine ⟨⟨true, 1, true, ⟨.tested, some .unLockRecursive, 1, true⟩, interrupted⟩, 3,
        ⟨true, 0, true, ⟨.idle, none, 0, true⟩, interrupted⟩, rfl, ?_, rfl, rfl⟩
      simp [advances, Irq.step, advanceStep, State.goto, State.noted, Context.noted, hless]
  | false =>
      refine ⟨⟨true, 1, false, ⟨.tested, some .unLockRecursive, 1, false⟩, interrupted⟩, 4,
        ⟨false, 0, false, ⟨.idle, none, 0, false⟩, interrupted⟩, rfl, ?_, rfl, rfl⟩
      simp [advances, Irq.step, advanceStep, State.goto, State.noted, Context.noted, hless]

theorem Inv.masked (h : Inv s) (hinside : s.current.Inside) : s.primask = true := by
  by_contra hne
  exact (h.suspend ((Bool.not_eq_true _).mp hne)).not_inside hinside

theorem Inv.restored (h : Inv s) (houtside : ¬s.current.Inside) : s.primask = s.current.before := by
  have hcon := h.consistent
  unfold Consistent at hcon
  unfold Context.Inside at houtside
  obtain ⟨hdepth, hpoint'⟩ := not_or.mp houtside
  have hzero : s.current.depth = 0 := by omega
  cases hpoint : s.current.point with
  | idle => rw [hpoint] at hcon; exact hcon.primask_out hzero
  | sampled startStatus => rw [hpoint] at hcon; exact hcon.1.primask_out hzero
  | disabled | loaded | counted => rw [hpoint] at hpoint'; exact absurd trivial hpoint'
  | tested => rw [hpoint] at hcon; exact absurd hcon.depth hdepth
  | unloaded | discounted | unlocking => rw [hpoint] at hcon; exact absurd hcon.1.depth hdepth

theorem Inv.exact (h : Inv s) : Exact s where
  masked := h.masked
  uninterrupted := fun context hcontext => (h.suspended context hcontext).not_inside
  restored := h.restored
  unlock := h.matchingUnlock
  surplus := h.unlock_out
  returns := h.returns s.current.point.left_le

-- Whatever runs and wherever handlers come in between, as long as the nesting
-- stays below 2 ^ 32.
theorem masking_exact (hs : system.ReachableBy Nested s) : Exact s :=
  (hs.invariant (fun _ => inv_initial) fun _ _ _ h hok hstep => h.step hok hstep).exact

-- A handler comes in between the sampling and __disable_irq, and takes the lock
-- twice itself.
def interruptedLock : List Event :=
  [.lockRecursive, .deliver, .lockRecursive, .advance, .advance, .advance, .advance,
    .lockRecursive, .advance, .advance, .advance, .advance, .unLockRecursive, .advance, .advance, .advance,
    .unLockRecursive, .advance, .advance, .advance, .advance, .unLockRecursive, .leave, .advance, .advance,
    .advance, .advance]

def unlocked : State := ⟨false, 0, false, ⟨.idle, none, 0, false⟩, []⟩

theorem interruptedLock_runs : (system.runBy Nested unlocked interruptedLock).isSome := by decide

theorem masking_exact_run :
    ∃ s, system.runBy Nested unlocked interruptedLock = some s ∧
      s.current.depth = 1 ∧ s.interrupted = [] ∧ s.primask = true ∧ Exact s :=
  have hstart : system.ReachableBy Nested unlocked := .start ⟨rfl, rfl, rfl, rfl⟩
  ⟨_, (Option.some_get interruptedLock_runs).symm, by decide, by decide, by decide,
    masking_exact (hstart.after interruptedLock interruptedLock_runs)⟩

end Irq

end Carbon
