import Carbon.Systime.Machine

namespace Carbon

namespace Systime

namespace Monotone

-- The functions that hand out the time.
inductive Call
  | systimeUs
  | halGetTick
  | timeCounterValue
  deriving DecidableEq

-- HAL_GetTick before its truncation, and carbon_time_counter_value.
def Call.value : Call → Nat → Nat
  | .systimeUs, us => us
  | .halGetTick, us => us / 1000
  | .timeCounterValue, us => if 0xFFFFFFFF < us then 0xFFFFFFFF else us

-- One call: what it returned, and the true ticks at that time.
structure Returned where
  call : Call
  value : Nat
  ticks : Nat

-- `calls` is the latest one first; it and `elapsed` are for the proofs.
structure Clock where
  timRunning : Bool
  cnt : Nat
  usCounterBase : Nat
  usTimLastCount : Nat
  elapsed : Nat
  calls : List Returned

-- Every sample of the counter and its usCounterAdjust are one step. The compare
-- interrupt may come at any time or never.
inductive Event
  | start
  | tick
  | isr
  | call (call : Call)

def adjustStep (s : Clock) : Clock × Nat :=
  let (base, last, count) := usCounterAdjust s.usCounterBase s.usTimLastCount s.cnt
  ({ s with usCounterBase := base, usTimLastCount := last }, count)

def callStep (s : Clock) (call : Call) : Clock :=
  if call = .halGetTick ∧ s.timRunning = false then
    { s with calls := ⟨call, 0, s.elapsed⟩ :: s.calls }
  else
    let (t, us) := adjustStep s
    { t with calls := ⟨call, call.value us, s.elapsed⟩ :: s.calls }

def step (s : Clock) : Event → Option Clock
  | .start => if s.timRunning then none else some { s with timRunning := true }
  | .tick =>
      if s.timRunning then some { s with cnt := uint32 (s.cnt + 1), elapsed := s.elapsed + 1 }
      else none
  | .isr => if s.timRunning then some (adjustStep s).1 else none
  | .call call => some (callStep s call)

def begin : Clock := ⟨false, 0, 0, 0, 0, []⟩

def system : Transition.System Clock Event where
  initial s := s = begin
  step := step

-- The values one function has returned, latest first.
def Clock.results (s : Clock) (call : Call) : List Nat :=
  (s.calls.filter fun returned => returned.call = call).map Returned.value

-- No function has run backwards, and systimeUs has not run ahead.
def NeverBackwards (s : Clock) : Prop :=
  ∀ call, (s.results call).Pairwise fun later earlier => earlier ≤ later

def NeverAhead (s : Clock) : Prop :=
  ∀ returned ∈ s.calls, returned.call = .systimeUs → returned.value ≤ returned.ticks

variable {s t : Clock}

theorem Call.value_mono (call : Call) {a b : Nat} (h : a ≤ b) : call.value a ≤ call.value b := by
  cases call with
  | systimeUs => exact h
  | halGetTick => exact Nat.div_le_div_right h
  | timeCounterValue =>
      simp only [Call.value]
      split <;> split <;> omega

-- `wraps` periods are in the base. They are wraps the counter made up to
-- `sampled`, the true ticks at its last sample.
structure Inv (wraps sampled : Nat) (s : Clock) : Prop where
  cnt : s.cnt = s.elapsed % 2 ^ 32
  base : s.usCounterBase = uint64 (wraps * period)
  last : s.usTimLastCount = sampled % 2 ^ 32
  sampled_le : sampled ≤ s.elapsed
  wraps_le : wraps ≤ sampled / 2 ^ 32
  stopped : s.timRunning = false → s.elapsed = 0
  -- Without a wrap of the 64-bit sum every result is below the last sample.
  below : s.elapsed < 2 ^ 64 → ∀ returned ∈ s.calls,
    returned.value ≤ returned.call.value (wraps * period + sampled % 2 ^ 32)
  backwards : s.elapsed < 2 ^ 64 → NeverBackwards s
  ahead : NeverAhead s

variable {wraps sampled : Nat}

theorem Inv.begin : Inv 0 0 begin :=
  ⟨rfl, rfl, rfl, Nat.le_refl _, Nat.le_refl _, fun _ => rfl, fun _ => nofun,
    fun _ _ => List.Pairwise.nil, nofun⟩

theorem Inv.tick (h : Inv wraps sampled s) (hrun : s.timRunning = true) :
    Inv wraps sampled { s with cnt := uint32 (s.cnt + 1), elapsed := s.elapsed + 1 } := by
  refine ⟨?_, h.base, h.last, Nat.le_succ_of_le h.sampled_le, h.wraps_le, ?_, ?_, ?_, h.ahead⟩
  · have hcnt := h.cnt
    dsimp only
    unfold uint32
    omega
  · intro hstop
    rw [hrun] at hstop
    cases hstop
  · exact fun hlt => h.below (Nat.lt_of_succ_lt hlt)
  · exact fun hlt => h.backwards (Nat.lt_of_succ_lt hlt)

-- The unwrapped result of an adjustment: it lies between the last one and the
-- true time.
theorem Inv.adjust (h : Inv wraps sampled s) : ∃ wraps' total base,
    total = wraps' * period + s.cnt ∧ base = uint64 (wraps' * period) ∧
      (adjustStep s).2 = uint64 total ∧
      wraps * period + sampled % 2 ^ 32 ≤ total ∧ total ≤ s.elapsed ∧
      wraps' ≤ s.elapsed / 2 ^ 32 ∧
      (adjustStep s).1 = { s with usCounterBase := base, usTimLastCount := s.cnt } := by
  obtain ⟨hcnt, hbase, hlast, hsampled, hwraps, -, -, -, -⟩ := h
  have hsum : ∀ a b, uint64 (uint64 a + b) = uint64 (a + b) := fun a b => Nat.mod_add_mod a (2 ^ 64) b
  by_cases hwrap : s.cnt < s.usTimLastCount
  · refine ⟨wraps + 1, _, _, rfl, rfl, ?_, ?_, ?_, ?_, ?_⟩
    · simp only [adjustStep, usCounterAdjust, hwrap, if_true, hbase, hsum, Nat.add_mul, Nat.one_mul]
    · unfold period
      omega
    · unfold period
      omega
    · omega
    · simp only [adjustStep, usCounterAdjust, hwrap, if_true, hbase, hsum, Nat.add_mul, Nat.one_mul]
  · refine ⟨wraps, _, _, rfl, rfl, ?_, ?_, ?_, ?_, ?_⟩
    · simp only [adjustStep, usCounterAdjust, hwrap, if_false, hbase, hsum]
    · omega
    · unfold period
      omega
    · omega
    · simp only [adjustStep, usCounterAdjust, hwrap, if_false, hbase]

theorem results_cons (calls : List Returned) (returned : Returned) (call : Call) :
    Clock.results { s with calls := returned :: calls } call =
      if returned.call = call then returned.value :: Clock.results { s with calls := calls } call
      else Clock.results { s with calls := calls } call := by
  unfold Clock.results
  rw [List.filter_cons]
  split
  · rename_i h
    rw [if_pos (of_decide_eq_true h), List.map_cons]
  · rename_i h
    rw [if_neg (by simpa using h)]

theorem Inv.isr (h : Inv wraps sampled s) : ∃ wraps' sampled', Inv wraps' sampled' (adjustStep s).1 := by
  obtain ⟨wraps', total, base, rfl, hbase, -, hge, hle, hwraps, heq⟩ := h.adjust
  refine ⟨wraps', s.elapsed, ?_⟩
  rw [heq]
  refine ⟨h.cnt, hbase, h.cnt, Nat.le_refl _, hwraps, h.stopped, ?_, h.backwards, h.ahead⟩
  rw [h.cnt] at hge
  intro hlt returned hmem
  exact Nat.le_trans (h.below hlt returned hmem) (returned.call.value_mono hge)

-- A value no smaller than all before it may join the results.
theorem NeverBackwards.cons {returned : Returned} (h : NeverBackwards s)
    (hnew : ∀ earlier ∈ s.calls, earlier.call = returned.call → earlier.value ≤ returned.value) :
    NeverBackwards { s with calls := returned :: s.calls } := by
  intro call
  rw [results_cons]
  split
  · rename_i heq
    refine List.pairwise_cons.mpr ⟨?_, h call⟩
    intro value hmem
    obtain ⟨earlier, hearlier, rfl⟩ := List.mem_map.mp hmem
    obtain ⟨hmem, hcall⟩ := List.mem_filter.mp hearlier
    exact hnew earlier hmem ((of_decide_eq_true hcall).trans heq.symm)
  · exact h call

theorem Inv.stoppedCall (h : Inv wraps sampled s) (hstop : s.timRunning = false) :
    Inv wraps sampled { s with calls := ⟨.halGetTick, 0, s.elapsed⟩ :: s.calls } := by
  have hzero : sampled = 0 := by
    have hle := h.sampled_le
    rw [h.stopped hstop] at hle
    exact Nat.le_zero.mp hle
  have hwraps : wraps = 0 := by
    have hle := h.wraps_le
    rw [hzero, Nat.zero_div] at hle
    exact Nat.le_zero.mp hle
  refine ⟨h.cnt, h.base, h.last, h.sampled_le, h.wraps_le, h.stopped, ?_, ?_, ?_⟩
  · intro hlt returned hmem
    rcases List.mem_cons.mp hmem with rfl | hmem
    · exact Nat.zero_le _
    · exact h.below hlt returned hmem
  · intro hlt
    refine (h.backwards hlt).cons fun earlier hmem hcall => ?_
    have hle := h.below hlt earlier hmem
    rw [hcall, hwraps, hzero] at hle
    exact hle
  · intro returned hmem hcall
    rcases List.mem_cons.mp hmem with rfl | hmem
    · cases hcall
    · exact h.ahead returned hmem hcall

theorem Inv.call (h : Inv wraps sampled s) (call : Call) :
    ∃ wraps' sampled', Inv wraps' sampled' (callStep s call) := by
  unfold callStep
  split
  · rename_i hstop
    obtain ⟨rfl, hstop⟩ := hstop
    exact ⟨wraps, sampled, h.stoppedCall hstop⟩
  obtain ⟨wraps', total, base, htotal, hbase, hcount, hge, hle, hwraps, heq⟩ := h.adjust
  refine ⟨wraps', s.elapsed, ?_⟩
  dsimp only
  rw [heq, hcount]
  have hfits : s.elapsed < 2 ^ 64 → uint64 total = total := fun hlt =>
    Nat.mod_eq_of_lt (Nat.lt_of_le_of_lt hle hlt)
  have hbelow : s.elapsed < 2 ^ 64 → ∀ returned ∈ s.calls,
      returned.value ≤ returned.call.value total := fun hlt returned hmem =>
    Nat.le_trans (h.below hlt returned hmem) (returned.call.value_mono hge)
  refine ⟨h.cnt, hbase, h.cnt, Nat.le_refl _, hwraps, h.stopped, ?_, ?_, ?_⟩
  · intro hlt returned hmem
    rw [← h.cnt, ← htotal]
    rcases List.mem_cons.mp hmem with rfl | hmem
    · rw [hfits hlt]
    · exact hbelow hlt returned hmem
  · intro hlt
    refine NeverBackwards.cons (s := { s with usCounterBase := _, usTimLastCount := _ })
      (h.backwards hlt) fun earlier hmem hcall => ?_
    have hold := hbelow hlt earlier hmem
    rw [hcall] at hold
    rw [hfits hlt]
    exact hold
  · intro returned hmem hcall
    rcases List.mem_cons.mp hmem with rfl | hmem
    · have hcall : call = .systimeUs := hcall
      subst hcall
      exact Nat.le_trans (Nat.mod_le _ _) hle
    · exact h.ahead returned hmem hcall

theorem Inv.step (h : Inv wraps sampled s) {e : Event} (hstep : step s e = some t) :
    ∃ wraps' sampled', Inv wraps' sampled' t := by
  cases e with
  | start =>
      obtain ⟨hstop, h'⟩ := Option.ite_none_left_eq_some.mp hstep
      cases h'
      refine ⟨wraps, sampled, h.cnt, h.base, h.last, h.sampled_le, h.wraps_le, nofun, h.below,
        h.backwards, h.ahead⟩
  | tick =>
      obtain ⟨hrun, h'⟩ := Option.ite_none_right_eq_some.mp hstep
      cases h'
      exact ⟨wraps, sampled, h.tick hrun⟩
  | isr =>
      obtain ⟨-, h'⟩ := Option.ite_none_right_eq_some.mp hstep
      cases h'
      exact h.isr
  | call call =>
      cases hstep
      exact h.call call

theorem inv_of_reachable (hs : system.Reachable s) : ∃ wraps sampled, Inv wraps sampled s := by
  refine hs.invariant (P := fun s => ∃ wraps sampled, Inv wraps sampled s) ?_ ?_
  · rintro s rfl
    exact ⟨0, 0, .begin⟩
  · rintro s e t ⟨wraps, sampled, h⟩ - hstep
    exact h.step hstep

-- No result is ahead of the true time in any run, and none is below an earlier
-- one before the time leaves 64 bits.
theorem results_ordered (hs : system.Reachable s) :
    NeverAhead s ∧ (s.elapsed < 2 ^ 64 → NeverBackwards s) := by
  obtain ⟨wraps, sampled, h⟩ := inv_of_reachable hs
  exact ⟨h.ahead, h.backwards⟩

theorem results_ordered_run : ∃ s, system.Reachable s ∧ s.calls.length = 4 ∧ NeverAhead s ∧
    NeverBackwards s := by
  have hs := Transition.System.ReachableBy.get system (fun _ _ => True)
    [.call .halGetTick, .start, .tick, .call .systimeUs, .isr, .tick, .call .timeCounterValue,
      .call .systimeUs] (s := begin) rfl (by decide)
  have h := results_ordered hs
  exact ⟨_, hs, rfl, h.1, h.2 (by decide)⟩

-- A counter whose every tick is sampled, after n ticks.
def sampledAt (n : Nat) (calls : List Returned) : Clock :=
  ⟨true, n % 2 ^ 32, uint64 (n / 2 ^ 32 * period), n % 2 ^ 32, n, calls⟩

theorem sampledAt_reachable {m : Nat} {calls : List Returned}
    (hs : system.Reachable (sampledAt m calls)) (n : Nat) :
    system.Reachable (sampledAt (m + n) calls) := by
  induction n with
  | zero => exact hs
  | succ n ih =>
      have hcnt : uint32 ((m + n) % 2 ^ 32 + 1) = (m + (n + 1)) % 2 ^ 32 := by
        unfold uint32
        omega
      have hbase : (if (m + (n + 1)) % 2 ^ 32 < (m + n) % 2 ^ 32
          then uint64 (uint64 ((m + n) / 2 ^ 32 * period) + period)
          else uint64 ((m + n) / 2 ^ 32 * period)) = uint64 ((m + (n + 1)) / 2 ^ 32 * period) := by
        unfold uint64 period
        split <;> omega
      have htick : system.step (sampledAt (m + n) calls) .tick = some
          { sampledAt (m + n) calls with cnt := (m + (n + 1)) % 2 ^ 32, elapsed := m + (n + 1) } := by
        simp only [system, step, sampledAt, if_true, hcnt]
        rfl
      have hisr : system.step
          { sampledAt (m + n) calls with cnt := (m + (n + 1)) % 2 ^ 32, elapsed := m + (n + 1) } .isr =
          some (sampledAt (m + (n + 1)) calls) := by
        simp only [system, step, sampledAt, if_true, adjustStep, usCounterAdjust, hbase]
      exact .next (.next ih trivial htick) trivial hisr

theorem sampledAt_call {n : Nat} {calls : List Returned}
    (hs : system.Reachable (sampledAt n calls)) :
    system.Reachable (sampledAt n
      (⟨.systimeUs, uint64 (n / 2 ^ 32 * period + n % 2 ^ 32), n⟩ :: calls)) := by
  have hsum : uint64 (uint64 (n / 2 ^ 32 * period) + n % 2 ^ 32) =
      uint64 (n / 2 ^ 32 * period + n % 2 ^ 32) := Nat.mod_add_mod _ (2 ^ 64) _
  refine .next (e := .call .systimeUs) hs trivial ?_
  simp only [system, step, callStep, sampledAt, adjustStep, usCounterAdjust, Nat.lt_irrefl, if_false,
    hsum, Call.value, reduceCtorEq, false_and]

-- After 2^64 + 2^32 + 1 ticks the count starts again from zero.
theorem count_leaves_64_bits : ¬∀ s, system.Reachable s → NeverBackwards s := by
  intro h
  have hstart : system.Reachable (sampledAt 0 []) :=
    .next (e := .start) (.start rfl) trivial rfl
  have hfirst := sampledAt_call (sampledAt_reachable hstart 1)
  have hlast := sampledAt_call (sampledAt_reachable hfirst (2 ^ 64 + 2 ^ 32))
  exact absurd (h _ hlast .systimeUs) (by decide)

end Monotone

end Systime

end Carbon
