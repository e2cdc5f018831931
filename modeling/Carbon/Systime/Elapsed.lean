import Carbon.Systime.Counting

namespace Carbon

namespace Systime

-- The calls fall between the runs of the handler.
def Between (s : State) : Event → Prop
  | .systimeUs => s.pc = .idle
  | _ => True

def Served (s : State) (e : Event) : Prop := Timely s e ∧ Between s e

variable {s t : State}

theorem Served.orderly {e : Event} (h : Served s e) : Orderly s e := by
  refine ⟨h.1, ?_⟩
  cases e with
  | systimeUs =>
      have hidle : s.pc = .idle := h.2
      unfold Harmless
      rw [hidle]
      exact trivial
  | tick | isrEnter | isrStep => exact trivial

-- Every wrap is in the base, but as 2^32 - 1 ticks.
theorem call_returns (hs : system.ReachableBy Served s) (hidle : s.pc = .idle)
    (hstep : system.step s .systimeUs = some t) :
    t.returned = some (uint64 (s.elapsed - s.wraps)) := by
  obtain ⟨k, h⟩ := inv_of_reachable (hs.mono fun _ _ hok => hok.orderly)
  cases hstep
  exact (h.systimeUs (Served.orderly ⟨trivial, hidle⟩ : Orderly s .systimeUs).2).2.1

theorem uint64_sub_wraps_eq_iff : uint64 (s.elapsed - s.wraps) = s.elapsed ↔ s.elapsed < 2 ^ 32 := by
  unfold uint64 State.wraps
  constructor
  · intro h
    have hle : (s.elapsed - s.elapsed / 2 ^ 32) % 2 ^ 64 ≤ s.elapsed - s.elapsed / 2 ^ 32 :=
      Nat.mod_le _ _
    omega
  · intro h
    rw [Nat.div_eq_of_lt h, Nat.sub_zero]
    exact Nat.mod_eq_of_lt (by omega)

-- A call returns the true number of ticks until the counter wraps for the first
-- time; then it is one tick short for every wrap.
theorem systimeUs_exact_iff (hs : system.ReachableBy Served s) (hidle : s.pc = .idle)
    (hstep : system.step s .systimeUs = some t) :
    t.returned = some s.elapsed ↔ s.elapsed < 2 ^ 32 := by
  rw [call_returns hs hidle hstep, Option.some.injEq]
  exact uint64_sub_wraps_eq_iff

theorem systimeUs_exact_after_ticks :
    (systimeUsStep ((system.run start [.tick, .tick, .tick]).get rfl)).returned = some 3 := by
  have hreach : system.ReachableBy Served _ :=
    .next (e := .tick) (.next (e := .tick) (.next (e := .tick) (.start rfl) ⟨by decide, trivial⟩ rfl)
      ⟨by decide, trivial⟩ rfl) ⟨by decide, trivial⟩ rfl
  exact (systimeUs_exact_iff hreach rfl rfl).mpr (by decide)

theorem handler_step (hs : system.ReachableBy Served s) (hstep : isrStepStep s = some t) :
    system.ReachableBy Served t :=
  .next (e := .isrStep) hs ⟨trivial, trivial⟩ hstep

theorem handler_finishes (hs : system.ReachableBy Served s) (hidle : s.pc = .idle)
    (hif : s.timer.cc1if = true) :
    ∃ t, system.ReachableBy Served t ∧ t.pc = .idle ∧ t.timer.cc1if = false ∧
      t.elapsed = s.elapsed := by
  have henter : system.step s .isrEnter = some
      { s with timer := { s.timer with uif := false, cc1if := false }, pc := .entered } := by
    simp only [system, Systime.step, isrEnterStep, hidle, hif, if_true]
  have hsampled := handler_step (.next (e := .isrEnter) hs ⟨trivial, trivial⟩ henter) rfl
  have hcompared := handler_step hsampled rfl
  obtain ⟨wrapped, hw⟩ : ∃ wrapped, decide (s.timer.cnt < s.usTimLastCount) = wrapped := ⟨_, rfl⟩
  simp only [hw] at hcompared
  cases wrapped with
  | false => exact ⟨_, handler_step (handler_step hcompared rfl) rfl, rfl, rfl, rfl⟩
  | true =>
      exact ⟨_, handler_step (handler_step (handler_step (handler_step hcompared rfl) rfl) rfl) rfl,
        rfl, rfl, rfl⟩

-- The counter can run for any time with every match served at once.
theorem elapsed_reachable (n : Nat) :
    ∃ s, system.ReachableBy Served s ∧ s.pc = .idle ∧ s.timer.cc1if = false ∧ s.elapsed = n := by
  induction n with
  | zero => exact ⟨start, .start rfl, rfl, rfl, rfl⟩
  | succ n ih =>
      obtain ⟨s, hs, hidle, hif, rfl⟩ := ih
      have htimely : Timely s .tick := by
        refine ⟨?_, ?_⟩
        · rw [hidle, hif]
          rintro (h | h) <;> cases h
        · rw [hidle]
          intro h
          cases h
      have hnext : system.ReachableBy Served (tickStep s) := .next (e := .tick) hs ⟨htimely, trivial⟩ rfl
      cases hmatch : (tickStep s).timer.cc1if with
      | false => exact ⟨_, hnext, hidle, hmatch, rfl⟩
      | true => exact handler_finishes hnext hidle hmatch

-- The first wrap adds SYSTIME_TIM_PERIOD, which is not 2^32.
theorem first_wrap_short :
    ¬∀ s t, system.ReachableBy Served s → s.pc = .idle → system.step s .systimeUs = some t →
      t.returned = some s.elapsed := by
  intro h
  obtain ⟨s, hs, hidle, _, hn⟩ := elapsed_reachable (2 ^ 32)
  have hcall := h s _ hs hidle rfl
  rw [call_returns hs hidle rfl, Option.some.injEq, uint64_sub_wraps_eq_iff, hn] at hcall
  exact absurd hcall (Nat.lt_irrefl _)

end Systime

end Carbon
