import Carbon.Library.Transition
import Carbon.Word

namespace Carbon

namespace Systime

-- SYSTIME_TIM_PERIOD.
def period : Nat := 0xFFFFFFFF

-- The registers of the free-running timer that the code uses.
structure Timer where
  cnt : Nat
  ccr1 : Nat
  uif : Bool
  cc1if : Bool

def Timer.tick (timer : Timer) : Timer :=
  let cnt := uint32 (timer.cnt + 1)
  { timer with
    cnt := cnt
    uif := timer.uif || decide (cnt = 0)
    cc1if := timer.cc1if || decide (cnt = timer.ccr1) }

-- usCounterAdjust as one piece: the new base, the new last count, the result.
def usCounterAdjust (usCounterBase usTimLastCount usTimCnt : Nat) : Nat × Nat × Nat :=
  let usCounterBase :=
    if usTimCnt < usTimLastCount then uint64 (usCounterBase + period) else usCounterBase
  (usCounterBase, usTimCnt, uint64 (usCounterBase + usTimCnt))

-- What the handler writes to CCR1.
def compareValue (cnt : Nat) : Nat :=
  let cnt := uint32 (cnt + period / 2)
  if period < cnt then cnt - period else cnt

-- Where carbon_hw_us_systime_tim_isr stands: after it has read and cleared SR,
-- after it has sampled CNT, and inside usCounterAdjust after the comparison,
-- the read of the base, its write, and the write of the last count.
inductive Pc
  | idle
  | entered
  | sampled (cnt : Nat)
  | compared (cnt : Nat) (wrapped : Bool)
  | baseRead (cnt base : Nat)
  | baseWritten (cnt : Nat)
  | adjusted (cnt : Nat)

-- The last four fields are for the proofs: the true number of ticks, and the
-- ticks at which the last count was sampled, at which the compare matched, and
-- at which the handler sampled.
structure State where
  timer : Timer
  usCounterBase : Nat
  usTimLastCount : Nat
  pc : Pc
  returned : Option Nat
  elapsed : Nat
  lastAt : Nat
  matchedAt : Nat
  sampledAt : Nat

inductive Event
  | tick
  | isrEnter
  | isrStep
  | systimeUs

def tickStep (s : State) : State :=
  { s with
    timer := s.timer.tick
    elapsed := s.elapsed + 1
    matchedAt := if s.timer.cc1if = false ∧ s.timer.tick.cc1if = true then s.elapsed + 1
      else s.matchedAt }

def isrEnterStep (s : State) : Option State :=
  match s.pc with
  | .idle =>
      if s.timer.cc1if then
        some { s with timer := { s.timer with uif := false, cc1if := false }, pc := .entered }
      else none
  | _ => none

def isrStepStep (s : State) : Option State :=
  match s.pc with
  | .idle => none
  | .entered => some { s with pc := .sampled s.timer.cnt, sampledAt := s.elapsed }
  | .sampled cnt => some { s with pc := .compared cnt (decide (cnt < s.usTimLastCount)) }
  | .compared cnt true => some { s with pc := .baseRead cnt s.usCounterBase }
  | .compared cnt false =>
      some { s with usTimLastCount := cnt, lastAt := s.sampledAt, pc := .adjusted cnt }
  | .baseRead cnt base =>
      some { s with usCounterBase := uint64 (base + period), pc := .baseWritten cnt }
  | .baseWritten cnt =>
      some { s with usTimLastCount := cnt, lastAt := s.sampledAt, pc := .adjusted cnt }
  | .adjusted cnt => some { s with timer := { s.timer with ccr1 := compareValue cnt }, pc := .idle }

-- systimeUs holds the recursive IRQ lock, so a call is one step wherever the
-- handler stands.
def systimeUsStep (s : State) : State :=
  let (base, last, count) := usCounterAdjust s.usCounterBase s.usTimLastCount s.timer.cnt
  { s with
    usCounterBase := base, usTimLastCount := last, returned := some count, lastAt := s.elapsed }

def step (s : State) : Event → Option State
  | .tick => some (tickStep s)
  | .isrEnter => isrEnterStep s
  | .isrStep => isrStepStep s
  | .systimeUs => some (systimeUsStep s)

-- low_level_system_time: the counter starts at zero, the first compare value
-- is half a period.
def start : State :=
  ⟨⟨0, period / 2, false, false⟩, 0, 0, .idle, none, 0, 0, 0, 0⟩

def system : Transition.System State Event where
  initial s := s = start
  step := step

-- The handler has not yet adjusted the counters.
def Pc.unserved : Pc → Bool
  | .entered | .sampled _ | .compared _ _ | .baseRead _ _ | .baseWritten _ => true
  | .idle | .adjusted _ => false

-- The handler has sampled and not yet re-armed the compare value.
def Pc.sampling : Pc → Bool
  | .sampled _ | .compared _ _ | .baseRead _ _ | .baseWritten _ | .adjusted _ => true
  | .idle | .entered => false

-- A compare match is served within 2^31 ticks, and the handler re-arms the
-- compare value before the counter reaches it.
def Timely (s : State) : Event → Prop
  | .tick =>
      (s.timer.cc1if = true ∨ s.pc.unserved = true → s.elapsed + 1 ≤ s.matchedAt + 2 ^ 31) ∧
        (s.pc.sampling = true → s.elapsed + 1 < s.sampledAt + period / 2)
  | _ => True

instance (s : State) : DecidablePred (Timely s)
  | .tick => inferInstanceAs (Decidable
      ((s.timer.cc1if = true ∨ s.pc.unserved = true → s.elapsed + 1 ≤ s.matchedAt + 2 ^ 31) ∧
        (s.pc.sampling = true → s.elapsed + 1 < s.sampledAt + period / 2)))
  | .isrEnter | .isrStep | .systimeUs => isTrue trivial

end Systime

end Carbon
