import Carbon.Library.Transition
import Carbon.Word
import Mathlib.Data.List.Nodup
import Mathlib.Logic.Function.Basic

namespace Carbon

-- `data` is read at any index: the slots, and whatever lies beyond them.
structure Stack where
  top : Nat
  data : Nat → Nat

namespace Stack

variable (size : Nat) (s : Stack)

def isFull : Bool := s.top == size

-- The pointers of data are to ObjectType, the argument is to const ObjectType. Where the
-- assignment does not convert no call of push is built, and none of a function that uses
-- it: such a call counts as one that fails.
inductive Pointee
  | mutable
  | const

def converts : Pointee → Pointee → Bool
  | .const, .mutable => false
  | _, _ => true

def pushBuilds : Bool := converts .const .mutable

def push (object : Nat) : Option Stack :=
  if !pushBuilds || s.isFull size then none
  else some { top := uint32 (s.top + 1), data := Function.update s.data s.top object }

-- The test is that of push, and the slot read is the one above the last pushed.
def pop : Option (Nat × Stack) :=
  if s.isFull size then none
  else some (s.data s.top, { s with top := uint32Sub s.top 1 })

-- The pointers below the top, which have been pushed and not popped.
def Holds (object : Nat) : Prop := ∃ i < s.top, s.data i = object

variable {size} {s}

theorem pop_eq_none_iff : s.pop size = none ↔ s.top = size := by
  unfold pop isFull
  simp

theorem push_fails (object : Nat) : s.push size object = none := rfl

end Stack

namespace MemoryPoolRaw

-- The allocator as its views are meant to be: interateBlock goes through these
-- blocks, and blockBelongs tells them from any other pointer.
structure Allocator where
  blocks : List Nat
  nodup : blocks.Nodup
  length_lt : blocks.length < 2 ^ 32

def Allocator.nElements (a : Allocator) : Nat := a.blocks.length

def Allocator.blockBelongs (a : Allocator) (block : Nat) : Bool := decide (block ∈ a.blocks)

-- isInitislized only decides on a diagnostic, and nothing ever sets it.
structure Pool where
  isInitislized : Bool
  stack : Stack

-- The return is not part of the if before it, and the loop that fills the stack
-- comes after it; but push is used there.
def init (p : Pool) : Bool × Pool := (Stack.pushBuilds, p)

def allocate (a : Allocator) (p : Pool) : Option Nat × Pool :=
  match p.stack.pop a.nElements with
  | some (block, stack) => (some block, { p with stack })
  | none => (none, p)

def free (a : Allocator) (p : Pool) (block : Nat) : Bool × Pool :=
  if a.blockBelongs block then
    match p.stack.push a.nElements block with
    | some stack => (true, { p with stack })
    | none => (false, p)
  else (false, p)

-- A pool with what its users know: that init was called, and the blocks handed
-- out and not freed.
structure State where
  pool : Pool
  initialized : Bool
  live : List Nat

inductive Event
  | init
  | allocate
  | free (block : Nat)

def step (a : Allocator) (s : State) : Event → Option State
  | .init => some { s with pool := (init s.pool).2, initialized := true }
  | .allocate =>
      match allocate a s.pool with
      | (some block, pool) => some { s with pool, live := block :: s.live }
      | (none, pool) => some { s with pool }
  | .free block =>
      match free a s.pool block with
      | (true, pool) => some { s with pool, live := s.live.erase block }
      | (false, pool) => some { s with pool }

-- A pool as it is constructed, its slots not initialised.
def start (data : Nat → Nat) : State := ⟨⟨false, ⟨0, data⟩⟩, false, []⟩

def system (a : Allocator) : Transition.System State Event where
  initial s := ∃ data, s = start data
  step := step a

-- The free blocks are those on the stack.
structure Sound (a : Allocator) (s : State) : Prop where
  distinct : s.live.Nodup ∧ ∀ block ∈ s.live, block ∈ a.blocks
  count : s.initialized = true → s.pool.stack.top + s.live.length = a.nElements
  allocate_iff : (allocate a s.pool).1 = none ↔ s.pool.stack.top = 0
  refused : ∀ block, block ∉ a.blocks ∨ s.pool.stack.Holds block → free a s.pool block = (false, s.pool)
  last : ∀ object stack, s.pool.stack.push a.nElements object = some stack →
    (stack.pop a.nElements).map Prod.fst = some object

variable {a : Allocator} {s t : State}

theorem allocate_eq_none_iff {p : Pool} : (allocate a p).1 = none ↔ p.stack.top = a.nElements := by
  rw [← Stack.pop_eq_none_iff]
  unfold allocate
  split <;> simp_all

theorem free_fails (a : Allocator) (p : Pool) (block : Nat) : free a p block = (false, p) := by
  unfold free
  rw [Stack.push_fails, ite_self]

theorem allocate_refused {p : Pool} (h : (allocate a p).1 = none) : allocate a p = (none, p) := by
  unfold allocate at h ⊢
  split
  · rename_i block stack hpop
    rw [hpop] at h
    cases h
  · rfl

-- A pool of no blocks hands out nothing and takes nothing back.
structure Idle (s : State) : Prop where
  top : s.pool.stack.top = 0
  live : s.live = []

theorem Idle.sound (h : Idle s) (hnone : a.nElements = 0) : Sound a s := by
  refine ⟨?_, ?_, ?_, ?_, ?_⟩
  · rw [h.live]
    exact ⟨List.nodup_nil, nofun⟩
  · intro _
    rw [h.top, h.live, hnone]
    rfl
  · rw [allocate_eq_none_iff, hnone]
  · exact fun block _ => free_fails a s.pool block
  · intro object stack hpush
    rw [Stack.push_fails] at hpush
    cases hpush

theorem Idle.step (h : Idle s) (hnone : a.nElements = 0) {e : Event} (hstep : MemoryPoolRaw.step a s e = some t) :
    Idle t := by
  cases e with
  | init => cases hstep; exact ⟨h.top, h.live⟩
  | allocate =>
      have hfail := allocate_refused (allocate_eq_none_iff.mpr (h.top.trans hnone.symm))
      unfold MemoryPoolRaw.step at hstep
      dsimp only at hstep
      rw [hfail] at hstep
      cases hstep
      exact h
  | free block =>
      unfold MemoryPoolRaw.step at hstep
      dsimp only at hstep
      rw [free_fails] at hstep
      cases hstep
      exact h

theorem Idle.run (hnone : a.nElements = 0) {data : Nat → Nat} {events : List Event}
    (hrun : (system a).run (start data) events = some s) : Idle s := by
  have hstart : (system a).Reachable (start data) := .start ⟨data, rfl⟩
  apply (hstart.run hrun).invariant (P := Idle)
  · rintro s ⟨data, rfl⟩
    exact ⟨rfl, rfl⟩
  · exact fun _ _ _ h _ hstep => h.step hnone hstep

-- A pool with blocks has none on its stack before init, and hands out what its
-- first slot holds all the same.
theorem not_sound_start (data : Nat → Nat) (hsome : a.nElements ≠ 0) : ¬Sound a (start data) := by
  intro h
  have hfail := allocate_eq_none_iff.mp (h.allocate_iff.mpr rfl)
  exact hsome hfail.symm

-- Nor does it have one after init.
theorem not_sound_init (data : Nat → Nat) (hsome : a.nElements ≠ 0) :
    ¬Sound a { start data with initialized := true } := by
  intro h
  exact hsome (h.count rfl).symm

-- All along any run of calls, from any content of the slots; also if the first
-- call is init, and only the states from there on count.
theorem pool_sound_iff (a : Allocator) (data : Nat → Nat) (events : List Event) :
    ((∀ calls s, (system a).run (start data) (events.take calls) = some s → Sound a s) ↔ a.nElements = 0) ∧
    ((∀ calls s, (system a).run (start data) (.init :: events.take calls) = some s → Sound a s) ↔
      a.nElements = 0) := by
  refine ⟨⟨?_, ?_⟩, ?_, ?_⟩
  · intro h
    by_contra hsome
    exact not_sound_start data hsome (h 0 _ rfl)
  · intro hnone calls s hrun
    exact (Idle.run hnone hrun).sound hnone
  · intro h
    by_contra hsome
    exact not_sound_init data hsome (h 0 _ rfl)
  · intro hnone calls s hrun
    exact (Idle.run hnone hrun).sound hnone

-- Two blocks, and zeros in the slots of the pool: the first allocate hands out NULL.
theorem fresh_pool_hands_out_null : ¬∀ a data events s,
    (system a).run (start data) events = some s → Sound a s := by
  intro h
  let a : Allocator := ⟨[0x20000000, 0x20000020], by decide, by decide⟩
  have hsound := h a (fun _ => 0) [.allocate] _ rfl
  exact absurd (hsound.distinct.2 0 List.mem_cons_self) (by decide)

end MemoryPoolRaw

end Carbon
