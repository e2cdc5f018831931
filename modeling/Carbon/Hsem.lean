import Mathlib.Logic.Function.Basic
import Carbon.Library.Transition
import Carbon.Word

namespace Carbon

inductive Core
  | cm7
  | cm4
deriving DecidableEq

namespace Core

def other : Core → Core
  | cm7 => cm4
  | cm4 => cm7

-- HSEM_CR_COREID_CURRENT, as each core is compiled with it.
def coreIdCurrent : Core → BitVec 32
  | cm7 => 3#32 <<< 8
  | cm4 => 1#32 <<< 8

theorem eq_or_eq_other (c d : Core) : d = c ∨ d = c.other := by
  cases c <;> cases d <;> simp [other]

theorem other_ne (c : Core) : c.other ≠ c := by
  cases c <;> simp [other]

end Core

-- IRQ::lockRecursive and IRQ::unLockRecursive of one core; `locked` is PRIMASK.
structure Irq where
  locked : Bool
  irqLockCounter : Nat
  irqLockStartStatus : Bool

namespace Irq

def lockRecursive (irq : Irq) : Irq :=
  let irqLockCounter := uint32 (irq.irqLockCounter + 1)
  { locked := true
    irqLockCounter := irqLockCounter
    irqLockStartStatus := if irqLockCounter = 1 then irq.locked else irq.irqLockStartStatus }

def unLockRecursive (irq : Irq) : Irq :=
  if irq.irqLockCounter ≠ 0 then
    let irqLockCounter := irq.irqLockCounter - 1
    { irq with
      irqLockCounter := irqLockCounter
      locked := if irqLockCounter = 0 ∧ irq.irqLockStartStatus = false then false else irq.locked }
  else irq

end Irq

namespace Hsem

def rlrLock : BitVec 32 := 1#32 <<< 31

-- The hardware. A read of RLR takes a free semaphore and returns who holds it;
-- a write of the own COREID to R frees it.
def readRLR (owner : Option Core) (c : Core) : BitVec 32 × Option Core :=
  let owner := owner.getD c
  (owner.coreIdCurrent ||| rlrLock, some owner)

def writeR (owner : Option Core) (c : Core) : Option Core :=
  if owner = some c then none else owner

inductive Pc
  | running
  | spinning
  | releasing
deriving DecidableEq

-- One hardware semaphore and its two cores. `depth` counts the gets of a core
-- that have no release yet; it is for the proofs, and keeps calls well nested.
structure State where
  owner : Option Core
  irq : Core → Irq
  pc : Core → Pc
  depth : Core → Nat

inductive Event
  | getEnter (c : Core)
  | getRead (c : Core)
  | releaseWrite (c : Core)
  | releaseUnlock (c : Core)

-- HSEMSpinLock::get up to its loop, one round of the loop, and the two parts
-- of HSEMSpinLock::release.
def step (s : State) : Event → Option State
  | .getEnter c =>
      if s.pc c = .running then
        some { s with
          irq := Function.update s.irq c (s.irq c).lockRecursive
          pc := Function.update s.pc c .spinning }
      else none
  | .getRead c =>
      if s.pc c = .spinning then
        let (word, owner) := readRLR s.owner c
        if word ≠ c.coreIdCurrent ||| rlrLock then some { s with owner := owner }
        else some { s with
          owner := owner
          pc := Function.update s.pc c .running
          depth := Function.update s.depth c (s.depth c + 1) }
      else none
  | .releaseWrite c =>
      if s.pc c = .running ∧ 0 < s.depth c then
        some { s with
          owner := writeR s.owner c
          pc := Function.update s.pc c .releasing
          depth := Function.update s.depth c (s.depth c - 1) }
      else none
  | .releaseUnlock c =>
      if s.pc c = .releasing then
        some { s with
          irq := Function.update s.irq c (s.irq c).unLockRecursive
          pc := Function.update s.pc c .running }
      else none

def start : State := ⟨none, fun _ => ⟨false, 0, false⟩, fun _ => .running, fun _ => 0⟩

def system : Transition.System State Event where
  initial s := s = start
  step := step

-- Between an outermost get and its matching release.
def Inside (s : State) (c : Core) : Prop := 0 < s.depth c

instance (s : State) (c : Core) : Decidable (Inside s c) := by
  unfold Inside; infer_instance

-- A release frees the semaphore whatever the depth is, so only the outermost
-- one is in order.
def Outermost (s : State) : Event → Prop
  | .releaseWrite c => s.depth c = 1
  | _ => True

instance (s : State) : DecidablePred (Outermost s)
  | .releaseWrite c => inferInstanceAs (Decidable (s.depth c = 1))
  | .getEnter _ | .getRead _ | .releaseUnlock _ => isTrue trivial

structure Inv (s : State) : Prop where
  owner : ∀ c, Inside s c → s.owner = some c

variable {s t : State} {c : Core}

theorem readRLR_eq_iff (owner : Option Core) :
    (readRLR owner c).1 = c.coreIdCurrent ||| rlrLock ↔ owner = none ∨ owner = some c := by
  cases owner with
  | none => simp [readRLR]
  | some d => cases c <;> cases d <;> decide

theorem getEnter_cases (h : step s (.getEnter c) = some t) :
    s.pc c = .running ∧ t = { s with
      irq := Function.update s.irq c (s.irq c).lockRecursive
      pc := Function.update s.pc c .spinning } := by
  simp only [step] at h
  split at h
  · cases h; exact ⟨‹_›, rfl⟩
  · cases h

-- A round of the loop keeps spinning while the other core holds the semaphore;
-- otherwise the core holds it afterwards.
theorem getRead_cases (h : step s (.getRead c) = some t) :
    s.pc c = .spinning ∧
      (s.owner = some c.other ∧ t = s ∨
        (s.owner = none ∨ s.owner = some c) ∧ t = { s with
          owner := some c
          pc := Function.update s.pc c .running
          depth := Function.update s.depth c (s.depth c + 1) }) := by
  simp only [step] at h
  split at h
  · refine ⟨‹_›, ?_⟩
    split at h
    · rename_i hword
      rw [ne_eq, readRLR_eq_iff, not_or] at hword
      cases howner : s.owner with
      | none => exact absurd howner hword.1
      | some d =>
          have hd : d = c.other := (Core.eq_or_eq_other c d).resolve_left
            (by rintro rfl; exact hword.2 howner)
          cases h
          refine .inl ⟨by rw [hd], ?_⟩
          simp only [readRLR, howner, Option.getD_some]
          rw [← howner]
    · rename_i hword
      rw [ne_eq, not_not, readRLR_eq_iff] at hword
      cases h
      refine .inr ⟨hword, ?_⟩
      rcases hword with howner | howner <;> simp [readRLR, howner]
  · cases h

theorem releaseWrite_cases (h : step s (.releaseWrite c) = some t) :
    s.pc c = .running ∧ 0 < s.depth c ∧ t = { s with
      owner := writeR s.owner c
      pc := Function.update s.pc c .releasing
      depth := Function.update s.depth c (s.depth c - 1) } := by
  simp only [step] at h
  split at h
  · rename_i hguard
    cases h
    exact ⟨hguard.1, hguard.2, rfl⟩
  · cases h

theorem releaseUnlock_cases (h : step s (.releaseUnlock c) = some t) :
    s.pc c = .releasing ∧ t = { s with
      irq := Function.update s.irq c (s.irq c).unLockRecursive
      pc := Function.update s.pc c .running } := by
  simp only [step] at h
  split at h
  · cases h; exact ⟨‹_›, rfl⟩
  · cases h

theorem Inv.step (h : Inv s) {e : Event} (hok : Outermost s e) (hstep : step s e = some t) :
    Inv t := by
  cases e with
  | getEnter c =>
      obtain ⟨_, rfl⟩ := getEnter_cases hstep
      exact ⟨h.owner⟩
  | getRead c =>
      obtain ⟨_, ⟨_, rfl⟩ | ⟨hfree, rfl⟩⟩ := getRead_cases hstep
      · exact h
      · refine ⟨fun d hd => ?_⟩
        rcases Core.eq_or_eq_other c d with rfl | rfl
        · rfl
        · -- the other core would hold the semaphore
          unfold Inside at hd
          simp only [Function.update_of_ne c.other_ne] at hd
          have howner := h.owner _ hd
          rw [howner] at hfree
          rcases hfree with hnone | hsame
          · cases hnone
          · exact absurd (Option.some.inj hsame) c.other_ne
  | releaseWrite c =>
      obtain ⟨_, hpos, rfl⟩ := releaseWrite_cases hstep
      refine ⟨fun d hd => ?_⟩
      unfold Inside at hd
      rcases Core.eq_or_eq_other c d with rfl | rfl
      · simp only [Function.update_self, show s.depth d = 1 from hok] at hd
        cases hd
      · simp only [Function.update_of_ne c.other_ne] at hd
        have hboth := (h.owner c hpos).symm.trans (h.owner _ hd)
        exact absurd (Option.some.inj hboth).symm c.other_ne
  | releaseUnlock c =>
      obtain ⟨_, rfl⟩ := releaseUnlock_cases hstep
      exact ⟨h.owner⟩

theorem inv_of_reachable (hs : system.ReachableBy Outermost s) : Inv s :=
  hs.invariant (by rintro s rfl; exact ⟨fun c hc => absurd hc (Nat.lt_irrefl 0)⟩)
    (fun _ _ _ h hok hstep => h.step hok hstep)

theorem getRead_free (hfree : s.owner = none) (hpc : s.pc c = .spinning) :
    step s (.getRead c) = some { s with
      owner := some c
      pc := Function.update s.pc c .running
      depth := Function.update s.depth c (s.depth c + 1) } := by
  simp [step, hpc, hfree, readRLR]

-- Once the semaphore is free, a core gets in by finishing what it is doing and
-- calling get.
theorem enters (hfree : s.owner = none) (c : Core) :
    ∃ labels t, system.run s labels = some t ∧ Inside t c ∧ t.depth c.other = s.depth c.other := by
  have hspin : ∀ u : State, u.owner = none → u.pc c = .spinning → u.depth = s.depth →
      ∃ t, system.run u [.getRead c] = some t ∧ Inside t c ∧ t.depth c.other = s.depth c.other := by
    intro u howner hpc hdepth
    refine ⟨_, congrArg (Option.bind · some) (getRead_free howner hpc), ?_, ?_⟩
    · simp [Inside]
    · simp only [Function.update_of_ne c.other_ne, hdepth]
  have hrun : ∀ u : State, u.owner = none → u.pc c = .running → u.depth = s.depth →
      ∃ t, system.run u [.getEnter c, .getRead c] = some t ∧ Inside t c ∧
        t.depth c.other = s.depth c.other := by
    intro u howner hpc hdepth
    have henter : step u (.getEnter c) = some { u with
        irq := Function.update u.irq c (u.irq c).lockRecursive
        pc := Function.update u.pc c .spinning } := by simp only [step, if_pos hpc]
    obtain ⟨t, ht, hin⟩ := hspin { u with
      irq := Function.update u.irq c (u.irq c).lockRecursive
      pc := Function.update u.pc c .spinning } howner (Function.update_self _ _ _) hdepth
    exact ⟨t, (congrArg (Option.bind · _) henter).trans ht, hin⟩
  cases hpc : s.pc c with
  | spinning =>
      obtain ⟨t, ht, hin⟩ := hspin s hfree hpc rfl
      exact ⟨_, t, ht, hin⟩
  | running =>
      obtain ⟨t, ht, hin⟩ := hrun s hfree hpc rfl
      exact ⟨_, t, ht, hin⟩
  | releasing =>
      have hunlock : step s (.releaseUnlock c) = some { s with
          irq := Function.update s.irq c (s.irq c).unLockRecursive
          pc := Function.update s.pc c .running } := by simp only [step, if_pos hpc]
      obtain ⟨t, ht, hin⟩ := hrun { s with
        irq := Function.update s.irq c (s.irq c).unLockRecursive
        pc := Function.update s.pc c .running } hfree (Function.update_self _ _ _) rfl
      exact ⟨[.releaseUnlock c, .getEnter c, .getRead c], t, (congrArg (Option.bind · _) hunlock).trans ht, hin⟩

-- As long as every release is of an outermost get, the cores are never both
-- inside; and after any other release they can both be.
theorem exclusive_of_outermost (hs : system.ReachableBy Outermost s) :
    ¬(Inside s .cm7 ∧ Inside s .cm4) ∧
      ∀ c t, ¬Outermost s (.releaseWrite c) → system.step s (.releaseWrite c) = some t →
        ∃ labels u, system.run t labels = some u ∧ Inside u .cm7 ∧ Inside u .cm4 := by
  have h := inv_of_reachable hs
  constructor
  · rintro ⟨h7, h4⟩
    have hboth := (h.owner _ h7).symm.trans (h.owner _ h4)
    cases hboth
  · intro c t hinner hstep
    obtain ⟨_, hpos, rfl⟩ := releaseWrite_cases hstep
    have hdepth : s.depth c ≠ 1 := hinner
    have hfree : writeR s.owner c = none := by simp [writeR, h.owner c hpos]
    obtain ⟨labels, u, hrun, hin, hd⟩ := enters (s := { s with
      owner := writeR s.owner c
      pc := Function.update s.pc c .releasing
      depth := Function.update s.depth c (s.depth c - 1) }) hfree c.other
    have hself : Inside u c := by
      unfold Inside
      have hcc : c.other.other = c := by cases c <;> rfl
      rw [hcc] at hd
      simp only [hd, Function.update_self]
      omega
    refine ⟨labels, u, hrun, ?_⟩
    cases c with
    | cm7 => exact ⟨hself, hin⟩
    | cm4 => exact ⟨hin, hself⟩

-- A diagnostic inside a critical section of the same semaphore: the nested
-- release frees it, and the other core gets in.
theorem nested_release_admits_both :
    ¬∀ s, system.Reachable s → ¬(Inside s .cm7 ∧ Inside s .cm4) := by
  intro h
  have hreach := Transition.System.ReachableBy.get system (fun _ _ => True)
    [.getEnter .cm7, .getRead .cm7, .getEnter .cm7, .getRead .cm7, .releaseWrite .cm7,
      .getEnter .cm4, .getRead .cm4] rfl (by decide)
  exact h _ hreach ⟨by decide, by decide⟩

theorem exclusive_of_outermost_run :
    ∃ s, Inside s .cm7 ∧ s.pc .cm4 = .spinning ∧ ¬(Inside s .cm7 ∧ Inside s .cm4) := by
  have hreach := Transition.System.ReachableBy.get system Outermost
    [.getEnter .cm7, .getRead .cm7, .releaseWrite .cm7, .releaseUnlock .cm7, .getEnter .cm7,
      .getEnter .cm4, .getRead .cm7, .getRead .cm4] rfl (by decide)
  exact ⟨_, by decide, by decide, (exclusive_of_outermost hreach).1⟩

end Hsem

end Carbon
