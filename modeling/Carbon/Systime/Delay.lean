import Carbon.Systime.Machine

namespace Carbon

namespace Systime

-- The true tick counts at which delayUs reads the counter, the first read of
-- CNT1 included. The register shows them modulo 2^32.
structure Reads where
  time : Nat → Nat
  advances : ∀ n, time n ≤ time (n + 1)
  slow : ∀ n, time (n + 1) < time n + 2 ^ 32

namespace Reads

variable (reads : Reads)

def cnt (n : Nat) : Nat := uint32 (reads.time n)

def elapsed (n : Nat) : Nat := reads.time n - reads.time 0

-- How often the counter went through zero since the first read.
def wraps (n : Nat) : Nat := reads.time n / 2 ^ 32 - reads.time 0 / 2 ^ 32

end Reads

def delayDiff (cnt1 cnt2 : Nat) : Nat :=
  if cnt1 < cnt2 then cnt2 - cnt1 else uint32 (uint32Sub period cnt1 + cnt2)

-- One read of CNT2 in the inner loop; none when the function returns after it.
def delayRead (cnt1 us cnt2 : Nat) : Option (Nat × Nat) :=
  if cnt2 = cnt1 then some (cnt1, us)
  else
    let diff := delayDiff cnt1 cnt2
    if us ≤ diff then none else some (cnt2, us - diff)

-- CNT1 and us after read n; none once delayUs has returned.
def delayUs (reads : Reads) (us : Nat) : Nat → Option (Nat × Nat)
  | 0 => some (reads.cnt 0, us)
  | n + 1 => (delayUs reads us n).bind fun (cnt1, us) => delayRead cnt1 us (reads.cnt (n + 1))

def ReturnsAt (reads : Reads) (us n : Nat) : Prop :=
  delayUs reads us n = none ∧ ∀ m < n, delayUs reads us m ≠ none

-- A step of less than 2^32 ticks shows in the register as no change, as an
-- increase, or as one wrap, and the code counts a wrap one tick short.
theorem delayDiff_step {a b : Nat} (hle : a ≤ b) (hlt : b < a + 2 ^ 32)
    (hne : uint32 b ≠ uint32 a) :
    delayDiff (uint32 a) (uint32 b) + (b / 2 ^ 32 - a / 2 ^ 32) = b - a := by
  unfold delayDiff uint32Sub period uint32 at *
  split
  · omega
  · omega

theorem step_eq_of_cnt_eq {a b : Nat} (hle : a ≤ b) (hlt : b < a + 2 ^ 32)
    (heq : uint32 b = uint32 a) : b = a := by
  unfold uint32 at heq
  omega

variable {reads : Reads} {us : Nat}

theorem Reads.time_mono (reads : Reads) {m n : Nat} (h : m ≤ n) : reads.time m ≤ reads.time n := by
  induction n, h using Nat.le_induction with
  | base => exact Nat.le_refl _
  | succ n _ ih => exact Nat.le_trans ih (reads.advances n)

-- What is left to wait and the true time waited make up the request and the
-- wraps; nothing is left only before the counter has moved.
structure Waiting (reads : Reads) (us n cnt1 left : Nat) : Prop where
  cnt : cnt1 = reads.cnt n
  balance : left + reads.elapsed n = us + reads.wraps n
  left : 0 < left ∨ reads.elapsed n = 0

theorem Waiting.start : Waiting reads us 0 (reads.cnt 0) us := by
  refine ⟨rfl, ?_, .inr (Nat.sub_self _)⟩
  unfold Reads.elapsed Reads.wraps
  rw [Nat.sub_self, Nat.sub_self]

theorem elapsed_succ (reads : Reads) (n : Nat) :
    reads.elapsed (n + 1) = reads.elapsed n + (reads.time (n + 1) - reads.time n) := by
  have hle := reads.advances n
  have hfirst := reads.time_mono (Nat.zero_le n)
  unfold Reads.elapsed
  omega

theorem wraps_succ (reads : Reads) (n : Nat) : reads.wraps (n + 1) =
    reads.wraps n + (reads.time (n + 1) / 2 ^ 32 - reads.time n / 2 ^ 32) := by
  have hle := Nat.div_le_div_right (c := 2 ^ 32) (reads.advances n)
  have hfirst := Nat.div_le_div_right (c := 2 ^ 32) (reads.time_mono (Nat.zero_le n))
  unfold Reads.wraps
  omega

-- One read keeps the balance, and the read that ends the wait comes in time.
theorem Waiting.read {n cnt1 left : Nat} (h : Waiting reads us n cnt1 left) :
    match delayRead cnt1 left (reads.cnt (n + 1)) with
    | some (cnt1', left') => Waiting reads us (n + 1) cnt1' left'
    | none => us ≤ reads.elapsed (n + 1) := by
  obtain ⟨rfl, hbalance, hleft⟩ := h
  have helapsed := elapsed_succ reads n
  have hwraps := wraps_succ reads n
  have hle := reads.advances n
  have hlt := reads.slow n
  unfold delayRead
  by_cases hsame : reads.cnt (n + 1) = reads.cnt n
  · have htime := step_eq_of_cnt_eq hle hlt hsame
    rw [htime, Nat.sub_self, Nat.add_zero] at helapsed hwraps
    rw [if_pos hsame]
    exact ⟨hsame.symm, by omega, by omega⟩
  · have hdiff := delayDiff_step hle hlt hsame
    change delayDiff (reads.cnt n) (reads.cnt (n + 1)) + _ = _ at hdiff
    rw [if_neg hsame]
    dsimp only
    by_cases henough : left ≤ delayDiff (reads.cnt n) (reads.cnt (n + 1))
    · rw [if_pos henough]
      dsimp only
      omega
    · rw [if_neg henough]
      exact ⟨rfl, by omega, by omega⟩

theorem waiting_or_returned (reads : Reads) (us n : Nat) :
    match delayUs reads us n with
    | some (cnt1, left) => Waiting reads us n cnt1 left
    | none => us ≤ reads.elapsed n := by
  induction n with
  | zero => exact Waiting.start
  | succ n ih =>
      rw [delayUs]
      cases hn : delayUs reads us n with
      | none =>
          rw [hn] at ih
          dsimp only [Option.bind_none] at ih ⊢
          have helapsed := elapsed_succ reads n
          omega
      | some state =>
          rw [hn] at ih
          exact Waiting.read ih

theorem returned_of_elapsed {n : Nat} (h : max us 1 + reads.wraps n ≤ reads.elapsed n) :
    delayUs reads us n = none := by
  have hn := waiting_or_returned reads us n
  cases hstate : delayUs reads us n with
  | none => rfl
  | some state =>
      rw [hstate] at hn
      obtain ⟨-, hbalance, hleft⟩ := hn
      omega

-- Never early, in time, and always if the counter goes on.
theorem delayUs_waits (reads : Reads) (us : Nat) :
    (∀ n, ReturnsAt reads us n → us ≤ reads.elapsed n) ∧
    (∀ n, max us 1 + reads.wraps n ≤ reads.elapsed n → ∃ m ≤ n, ReturnsAt reads us m) ∧
    ((∀ t, ∃ n, t ≤ reads.time n) → ∃ n, ReturnsAt reads us n) := by
  have hfirst : ∀ n, delayUs reads us n = none → ∃ m ≤ n, ReturnsAt reads us m := by
    intro n hn
    induction n using Nat.strong_induction_on with
    | _ n ih =>
        by_cases h : ∃ m < n, delayUs reads us m = none
        · obtain ⟨m, hlt, hm⟩ := h
          obtain ⟨k, hk, hret⟩ := ih m hlt hm
          exact ⟨k, by omega, hret⟩
        · exact ⟨n, Nat.le_refl n, hn, fun m hlt hm => h ⟨m, hlt, hm⟩⟩
  refine ⟨?_, ?_, ?_⟩
  · intro n hret
    have hn := waiting_or_returned reads us n
    rw [hret.1] at hn
    exact hn
  · exact fun n h => hfirst n (returned_of_elapsed h)
  · intro hruns
    obtain ⟨n, hn⟩ := hruns (reads.time 0 + 2 * max us 1 + 4)
    have hwraps : 2 * reads.wraps n ≤ reads.elapsed n + 2 := by
      unfold Reads.wraps Reads.elapsed
      omega
    obtain ⟨m, -, hret⟩ := hfirst n (returned_of_elapsed (by unfold Reads.elapsed at *; omega))
    exact ⟨m, hret⟩

-- The counter stands still for one read and wraps before the next one, which the
-- code counts one tick short.
def wrapping : Reads where
  time
    | 0 | 1 => 2 ^ 32 - 2
    | n + 2 => 2 ^ 32 + 3 + 4 * n
  advances
    | 0 => Nat.le_refl _
    | 1 => by decide
    | n + 2 => by dsimp only; omega
  slow
    | 0 => by decide
    | 1 => by decide
    | n + 2 => by dsimp only; omega

theorem delayUs_waits_wrap :
    (List.range 4).map wrapping.cnt = [2 ^ 32 - 2, 2 ^ 32 - 2, 3, 7] ∧ ReturnsAt wrapping 5 3 ∧
      wrapping.elapsed 3 = 9 ∧ wrapping.wraps 3 = 1 ∧ 5 ≤ wrapping.elapsed 3 := by
  have hreturns : ReturnsAt wrapping 5 3 := by
    unfold ReturnsAt
    decide
  exact ⟨by decide, hreturns, rfl, rfl, (delayUs_waits wrapping 5).1 3 hreturns⟩

end Systime

end Carbon
