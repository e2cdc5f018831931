import Carbon.Systime.Machine

namespace Carbon

namespace Systime

-- A call that preempts the handler does no harm if the counter still stands at
-- the handler's sample; after a comparison without a wrap, if it has not
-- wrapped since; after the base was read; and after it was written, if the call
-- does not see the same wrap again.
def Pc.Harmless (cnt last : Nat) : Pc → Prop
  | .sampled sample => cnt = sample
  | .compared sample false => sample ≤ cnt
  | .compared _ true => False
  | .baseWritten _ => last ≤ cnt
  | .idle | .entered | .baseRead _ _ | .adjusted _ => True

def Harmless (s : State) : Event → Prop
  | .systimeUs => s.pc.Harmless s.timer.cnt s.usTimLastCount
  | _ => True

def Orderly (s : State) (e : Event) : Prop := Timely s e ∧ Harmless s e

instance (cnt last : Nat) : DecidablePred (Pc.Harmless cnt last)
  | .sampled sample => inferInstanceAs (Decidable (cnt = sample))
  | .compared sample false => inferInstanceAs (Decidable (sample ≤ cnt))
  | .compared _ true => isFalse id
  | .baseWritten _ => inferInstanceAs (Decidable (last ≤ cnt))
  | .idle | .entered | .baseRead _ _ | .adjusted _ => isTrue trivial

instance (s : State) : DecidablePred (Harmless s)
  | .systimeUs => inferInstanceAs (Decidable (s.pc.Harmless s.timer.cnt s.usTimLastCount))
  | .tick | .isrEnter | .isrStep => isTrue trivial

instance (s : State) (e : Event) : Decidable (Orderly s e) := by
  unfold Orderly; infer_instance

-- The hardware wraps of the counter so far.
def State.wraps (s : State) : Nat := s.elapsed / 2 ^ 32

-- The compare register still holds the value of the match that is being served.
def Matched (s : State) : Prop :=
  s.timer.ccr1 = s.matchedAt % 2 ^ 32 ∧ s.matchedAt ≤ s.elapsed ∧
    s.elapsed ≤ s.matchedAt + 2 ^ 31

-- A match comes at most half a period after the last count was sampled.
def Near (s : State) : Prop := s.matchedAt ≤ s.lastAt + (2 ^ 31 - 1)

def Sampled (s : State) (cnt : Nat) : Prop :=
  cnt = s.sampledAt % 2 ^ 32 ∧ s.sampledAt ≤ s.elapsed ∧
    s.elapsed < s.sampledAt + (2 ^ 31 - 1) ∧ s.matchedAt ≤ s.sampledAt ∧ s.timer.cc1if = false

-- What holds at each point of the handler when k wraps are in the base.
def AtPc (k : Nat) (s : State) : Pc → Prop
  | .idle => s.lastAt / 2 ^ 32 = k ∧
      (s.timer.cc1if = true ∧ Matched s ∧ Near s ∨
        s.timer.cc1if = false ∧ ∃ next, s.timer.ccr1 = next % 2 ^ 32 ∧ s.elapsed < next ∧
          next ≤ s.lastAt + (2 ^ 31 - 1))
  | .entered => s.lastAt / 2 ^ 32 = k ∧ s.timer.cc1if = false ∧ Matched s ∧ Near s
  | .sampled cnt => s.lastAt / 2 ^ 32 = k ∧ Sampled s cnt ∧ Matched s ∧ Near s ∧
      s.lastAt ≤ s.sampledAt
  | .compared cnt false => s.lastAt / 2 ^ 32 = k ∧ Sampled s cnt ∧ Matched s ∧
      s.sampledAt / 2 ^ 32 = k
  | .compared cnt true => s.lastAt / 2 ^ 32 = k ∧ Sampled s cnt ∧ Matched s ∧ Near s ∧
      s.sampledAt / 2 ^ 32 = k + 1
  | .baseRead cnt base => Sampled s cnt ∧ Matched s ∧ ∃ old,
      s.sampledAt / 2 ^ 32 = old + 1 ∧ base = uint64 (period * old) ∧
        s.matchedAt + 2 ^ 31 < (old + 1 + 1) * 2 ^ 32 ∧
        (k = old ∧ s.lastAt / 2 ^ 32 = old ∧ Near s ∨ k = old + 1 ∧ s.lastAt / 2 ^ 32 = old + 1)
  | .baseWritten cnt => Sampled s cnt ∧ Matched s ∧ s.sampledAt / 2 ^ 32 = k ∧
      s.matchedAt + 2 ^ 31 < (k + 1) * 2 ^ 32 ∧
        (s.lastAt / 2 ^ 32 + 1 = k ∨ s.lastAt / 2 ^ 32 = k)
  | .adjusted cnt => s.lastAt / 2 ^ 32 = k ∧ Sampled s cnt ∧ s.sampledAt ≤ s.lastAt ∧
      s.timer.ccr1 = s.matchedAt % 2 ^ 32 ∧ s.sampledAt ≤ s.matchedAt + 2 ^ 31

structure Inv (k : Nat) (s : State) : Prop where
  cnt : s.timer.cnt = s.elapsed % 2 ^ 32
  last : s.usTimLastCount = s.lastAt % 2 ^ 32
  base : s.usCounterBase = uint64 (period * k)
  lastAt_le : s.lastAt ≤ s.elapsed
  atPc : AtPc k s s.pc

variable {k : Nat} {s t : State}

theorem uint64_add (a b : Nat) : uint64 (uint64 a + b) = uint64 (a + b) :=
  Nat.mod_add_mod _ _ _

theorem compareValue_eq (cnt : Nat) : compareValue cnt = (cnt + (2 ^ 31 - 1)) % 2 ^ 32 := by
  unfold compareValue period uint32
  simp only
  split <;> omega

-- The base lags behind the hardware by one wrap at most, and is never ahead.
theorem Inv.bounds (h : Inv k s) : k ≤ s.wraps ∧ s.wraps ≤ k + 1 := by
  have hle := h.lastAt_le
  have hpc := h.atPc
  unfold State.wraps
  cases hs : s.pc with
  | idle =>
      rw [hs] at hpc
      obtain ⟨hk, ⟨_, hm, hn⟩ | ⟨_, next, _, hlt, hnext⟩⟩ := hpc
      · unfold Matched Near at *; omega
      · omega
  | entered => rw [hs] at hpc; unfold AtPc Matched Near at hpc; omega
  | sampled cnt => rw [hs] at hpc; unfold AtPc Matched Near at hpc; omega
  | compared cnt wrapped =>
      cases wrapped with
      | false => rw [hs] at hpc; unfold AtPc Sampled at hpc; omega
      | true => rw [hs] at hpc; unfold AtPc Sampled Matched Near at hpc; omega
  | baseRead cnt base =>
      rw [hs] at hpc
      obtain ⟨hsample, hm, old, hold, _, hbound, hcase⟩ := hpc
      unfold Sampled Matched at *
      omega
  | baseWritten cnt => rw [hs] at hpc; unfold AtPc Sampled Matched at hpc; omega
  | adjusted cnt => rw [hs] at hpc; unfold AtPc Sampled at hpc; omega

theorem Inv.start : Inv 0 start := by
  refine ⟨rfl, rfl, rfl, Nat.le_refl _, rfl, .inr ⟨rfl, 2 ^ 31 - 1, ?_, ?_, ?_⟩⟩ <;> decide

-- Away from a match the tick only moves the counter.
theorem tickStep_quiet (hif : s.timer.cc1if = false) (hcnt : s.timer.cnt = s.elapsed % 2 ^ 32)
    (hne : (s.elapsed + 1) % 2 ^ 32 ≠ s.timer.ccr1) :
    (tickStep s).timer.cc1if = false ∧ (tickStep s).matchedAt = s.matchedAt := by
  have hnext : uint32 (s.timer.cnt + 1) ≠ s.timer.ccr1 := by
    rw [hcnt, uint32, Nat.mod_add_mod]
    exact hne
  simp [tickStep, Timer.tick, hif, hnext]

theorem tickStep_pending (hif : s.timer.cc1if = true) :
    (tickStep s).timer.cc1if = true ∧ (tickStep s).matchedAt = s.matchedAt := by
  simp [tickStep, Timer.tick, hif]

theorem tickStep_match (hif : s.timer.cc1if = false) (hcnt : s.timer.cnt = s.elapsed % 2 ^ 32)
    (heq : (s.elapsed + 1) % 2 ^ 32 = s.timer.ccr1) :
    (tickStep s).timer.cc1if = true ∧ (tickStep s).matchedAt = s.elapsed + 1 := by
  have hnext : uint32 (s.timer.cnt + 1) = s.timer.ccr1 := by
    rw [hcnt, uint32, Nat.mod_add_mod]
    exact heq
  simp [tickStep, Timer.tick, hif, hnext]

-- A served match stays the last one while its handler is on time.
theorem Matched.tick (hm : Matched s) (hif : s.timer.cc1if = false)
    (hcnt : s.timer.cnt = s.elapsed % 2 ^ 32) (hserve : s.elapsed + 1 ≤ s.matchedAt + 2 ^ 31) :
    Matched (tickStep s) ∧ (tickStep s).timer.cc1if = false ∧
      (tickStep s).matchedAt = s.matchedAt := by
  obtain ⟨hccr, hge, _⟩ := hm
  obtain ⟨hif', hat⟩ := tickStep_quiet hif hcnt (by omega)
  refine ⟨⟨?_, ?_, ?_⟩, hif', hat⟩
  · rw [hat]; exact hccr
  · rw [hat]; exact Nat.le_succ_of_le hge
  · rw [hat]; exact hserve

theorem Sampled.tick {cnt : Nat} (h : Sampled s cnt)
    (hquiet : (tickStep s).timer.cc1if = false ∧ (tickStep s).matchedAt = s.matchedAt)
    (hsample : s.elapsed + 1 < s.sampledAt + (2 ^ 31 - 1)) : Sampled (tickStep s) cnt := by
  obtain ⟨hcnt, hge, _, hms, _⟩ := h
  refine ⟨hcnt, Nat.le_succ_of_le hge, hsample, ?_, hquiet.1⟩
  rw [hquiet.2]
  exact hms

theorem Near.tick (h : Near s) (hat : (tickStep s).matchedAt = s.matchedAt) :
    Near (tickStep s) := by
  unfold Near at *
  rw [hat]
  exact h

-- Idle, the handler waits for the next match or has one to serve.
theorem AtPc.idle_tick (h : AtPc k s .idle) (hcnt : s.timer.cnt = s.elapsed % 2 ^ 32)
    (hle : s.lastAt ≤ s.elapsed)
    (hserve : s.timer.cc1if = true → s.elapsed + 1 ≤ s.matchedAt + 2 ^ 31) :
    AtPc k (tickStep s) .idle := by
  obtain ⟨hk, ⟨hif, ⟨hccr, hge, _⟩, hn⟩ | ⟨hif, next, hccr, hlt, hnext⟩⟩ := h
  · obtain ⟨hif', hat⟩ := tickStep_pending hif
    refine ⟨hk, .inl ⟨hif', ⟨?_, ?_, ?_⟩, hn.tick hat⟩⟩
    · rw [hat]; exact hccr
    · rw [hat]; exact Nat.le_succ_of_le hge
    · rw [hat]; exact hserve hif
  · by_cases hreach : s.elapsed + 1 = next
    · obtain ⟨hif', hat⟩ := tickStep_match hif hcnt (by rw [hccr, hreach])
      refine ⟨hk, .inl ⟨hif', ⟨?_, ?_, ?_⟩, ?_⟩⟩
      · rw [hat, hreach]; exact hccr
      · rw [hat]; exact Nat.le_refl _
      · rw [hat]; exact Nat.le_add_right _ _
      · unfold Near; rw [hat, hreach]; exact hnext
    · obtain ⟨hif', _⟩ := tickStep_quiet hif hcnt (by omega)
      refine ⟨hk, .inr ⟨hif', next, hccr, ?_, hnext⟩⟩
      show s.elapsed + 1 < next
      omega

theorem Inv.tick (h : Inv k s) (hok : Timely s .tick) : Inv k (tickStep s) := by
  have hcnt : (tickStep s).timer.cnt = (s.elapsed + 1) % 2 ^ 32 := by
    simp only [tickStep, Timer.tick, h.cnt, uint32, Nat.mod_add_mod]
  obtain ⟨hserve, hsample⟩ := hok
  have hpc := h.atPc
  have hle := h.lastAt_le
  refine ⟨hcnt, h.last, h.base, Nat.le_succ_of_le hle, ?_⟩
  show AtPc k (tickStep s) s.pc
  cases hs : s.pc with
  | idle =>
      rw [hs] at hpc
      exact hpc.idle_tick h.cnt hle fun hif => hserve (.inl hif)
  | entered =>
      rw [hs] at hpc hserve
      obtain ⟨hk, hif, hm, hn⟩ := hpc
      obtain ⟨hm', hif', hat⟩ := hm.tick hif h.cnt (hserve (.inr rfl))
      exact ⟨hk, hif', hm', hn.tick hat⟩
  | sampled cnt =>
      rw [hs] at hpc hserve hsample
      obtain ⟨hk, hcs, hm, hn, hl⟩ := hpc
      obtain ⟨hm', hif', hat⟩ := hm.tick hcs.2.2.2.2 h.cnt (hserve (.inr rfl))
      exact ⟨hk, hcs.tick ⟨hif', hat⟩ (hsample rfl), hm', hn.tick hat, hl⟩
  | compared cnt wrapped =>
      cases wrapped with
      | false =>
          rw [hs] at hpc hserve hsample
          obtain ⟨hk, hcs, hm, hw⟩ := hpc
          obtain ⟨hm', hif', hat⟩ := hm.tick hcs.2.2.2.2 h.cnt (hserve (.inr rfl))
          exact ⟨hk, hcs.tick ⟨hif', hat⟩ (hsample rfl), hm', hw⟩
      | true =>
          rw [hs] at hpc hserve hsample
          obtain ⟨hk, hcs, hm, hn, hw⟩ := hpc
          obtain ⟨hm', hif', hat⟩ := hm.tick hcs.2.2.2.2 h.cnt (hserve (.inr rfl))
          exact ⟨hk, hcs.tick ⟨hif', hat⟩ (hsample rfl), hm', hn.tick hat, hw⟩
  | baseRead cnt base =>
      rw [hs] at hpc hserve hsample
      obtain ⟨hcs, hm, old, hold, hbase, hbound, hcase⟩ := hpc
      obtain ⟨hm', hif', hat⟩ := hm.tick hcs.2.2.2.2 h.cnt (hserve (.inr rfl))
      exact ⟨hcs.tick ⟨hif', hat⟩ (hsample rfl), hm', old, hold, hbase, by rw [hat]; exact hbound,
        hcase.imp_left fun hl => ⟨hl.1, hl.2.1, hl.2.2.tick hat⟩⟩
  | baseWritten cnt =>
      rw [hs] at hpc hserve hsample
      obtain ⟨hcs, hm, hw, hbound, hcase⟩ := hpc
      obtain ⟨hm', hif', hat⟩ := hm.tick hcs.2.2.2.2 h.cnt (hserve (.inr rfl))
      exact ⟨hcs.tick ⟨hif', hat⟩ (hsample rfl), hm', hw, by rw [hat]; exact hbound, hcase⟩
  | adjusted cnt =>
      rw [hs] at hpc hsample
      obtain ⟨hk, hcs, hl, hccr, hsm⟩ := hpc
      have hlate := hsample rfl
      have hquiet := tickStep_quiet hcs.2.2.2.2 h.cnt (by
        obtain ⟨_, hsge, _, hms, _⟩ := hcs
        unfold period at hlate
        omega)
      refine ⟨hk, hcs.tick hquiet hlate, hl, ?_, ?_⟩
      · rw [hquiet.2]; exact hccr
      · rw [hquiet.2]; exact hsm

theorem Inv.isrEnter (h : Inv k s) (hstep : isrEnterStep s = some t) : Inv k t := by
  unfold isrEnterStep at hstep
  split at hstep
  · rename_i hs
    split at hstep
    · rename_i hif
      cases hstep
      have hpc := h.atPc
      rw [hs] at hpc
      obtain ⟨hk, ⟨_, hm, hn⟩ | ⟨hnot, _⟩⟩ := hpc
      · exact ⟨h.cnt, h.last, h.base, h.lastAt_le, hk, rfl, hm, hn⟩
      · rw [hif] at hnot; cases hnot
    · cases hstep
  · cases hstep

-- One part of the handler; only the write of the base can count a wrap.
theorem Inv.sample (h : Inv k s) (hs : s.pc = .entered) :
    Inv k { s with pc := .sampled s.timer.cnt, sampledAt := s.elapsed } := by
  have hpc := h.atPc
  rw [hs] at hpc
  obtain ⟨hk, hif, hm, hn⟩ := hpc
  refine ⟨h.cnt, h.last, h.base, h.lastAt_le, hk, ⟨h.cnt, Nat.le_refl _, ?_, hm.2.1, hif⟩, hm, hn, h.lastAt_le⟩
  exact Nat.lt_add_of_pos_right (by decide)

-- Less than a whole turn lies between the two samples.
theorem Inv.compare (h : Inv k s) {cnt : Nat} (hs : s.pc = .sampled cnt) :
    Inv k { s with pc := .compared cnt (decide (cnt < s.usTimLastCount)) } := by
  have hpc := h.atPc
  have hlast := h.last
  rw [hs] at hpc
  obtain ⟨hk, hcs, hm, hn, hl⟩ := hpc
  refine ⟨h.cnt, h.last, h.base, h.lastAt_le, ?_⟩
  show AtPc k s (.compared cnt (decide (cnt < s.usTimLastCount)))
  by_cases hlt : cnt < s.usTimLastCount
  · rw [decide_eq_true hlt]
    refine ⟨hk, hcs, hm, hn, ?_⟩
    unfold Sampled Matched Near at *
    omega
  · rw [decide_eq_false hlt]
    refine ⟨hk, hcs, hm, ?_⟩
    unfold Sampled Matched Near at *
    omega

theorem Inv.readBase (h : Inv k s) {cnt : Nat} (hs : s.pc = .compared cnt true) :
    Inv k { s with pc := .baseRead cnt s.usCounterBase } := by
  have hpc := h.atPc
  rw [hs] at hpc
  obtain ⟨hk, hcs, hm, hn, hw⟩ := hpc
  refine ⟨h.cnt, h.last, h.base, h.lastAt_le, hcs, hm, k, hw, h.base, ?_, .inl ⟨rfl, hk, hn⟩⟩
  unfold Near at hn
  show s.matchedAt + 2 ^ 31 < (k + 1 + 1) * 2 ^ 32
  omega

-- The base that was read lacks the wrap, or a call has added it in between.
theorem Inv.writeBase (h : Inv k s) {cnt read base : Nat} (hs : s.pc = .baseRead cnt read)
    (hadd : uint64 (read + period) = base) :
    Inv k { s with usCounterBase := base, pc := .baseWritten cnt } ∧ base = s.usCounterBase ∨
      Inv (k + 1) { s with usCounterBase := base, pc := .baseWritten cnt } ∧ k + 1 ≤ s.wraps := by
  have hpc := h.atPc
  rw [hs] at hpc
  obtain ⟨hcs, hm, old, hw, rfl, hbound, hcase⟩ := hpc
  have hbase : base = uint64 (period * (old + 1)) := by
    rw [← hadd, uint64_add, Nat.mul_succ]
  have hsample := hcs.2.1
  rcases hcase with ⟨rfl, hk, _⟩ | ⟨rfl, hk⟩
  · refine .inr ⟨⟨h.cnt, h.last, hbase, h.lastAt_le, hcs, hm, hw, hbound, .inl (by rw [hk])⟩, ?_⟩
    unfold State.wraps
    omega
  · exact .inl ⟨⟨h.cnt, h.last, hbase, h.lastAt_le, hcs, hm, hw, hbound, .inr hk⟩, hbase.trans h.base.symm⟩

-- The handler leaves its sample as the last count, with or without a wrap.
theorem Inv.writeLast (h : Inv k s) {cnt : Nat} (hcs : Sampled s cnt) (hm : Matched s)
    (hw : s.sampledAt / 2 ^ 32 = k) :
    Inv k { s with usTimLastCount := cnt, lastAt := s.sampledAt, pc := .adjusted cnt } :=
  ⟨h.cnt, hcs.1, h.base, hcs.2.1, hw, hcs, Nat.le_refl _, hm.1, Nat.le_trans hcs.2.1 hm.2.2⟩

-- The next match is half a period behind the handler's sample.
theorem Inv.writeCompare (h : Inv k s) {cnt ccr1 : Nat} (hs : s.pc = .adjusted cnt)
    (hccr : compareValue cnt = ccr1) :
    Inv k { s with timer := { s.timer with ccr1 := ccr1 }, pc := .idle } := by
  have hpc := h.atPc
  rw [hs] at hpc
  obtain ⟨hk, hcs, hl, _, _⟩ := hpc
  have hnext : ccr1 = (s.sampledAt + (2 ^ 31 - 1)) % 2 ^ 32 := by
    rw [← hccr, compareValue_eq, hcs.1, Nat.mod_add_mod]
  exact ⟨h.cnt, h.last, h.base, h.lastAt_le, hk, .inr ⟨hcs.2.2.2.2, s.sampledAt + (2 ^ 31 - 1),
    hnext, hcs.2.2.1, Nat.add_le_add_right hl _⟩⟩

theorem Inv.isrStep (h : Inv k s) (hstep : isrStepStep s = some t) :
    Inv k t ∧ t.usCounterBase = s.usCounterBase ∨ Inv (k + 1) t ∧ k + 1 ≤ s.wraps := by
  have hpc := h.atPc
  cases hs : s.pc with
  | idle => simp only [isrStepStep, hs] at hstep; cases hstep
  | entered =>
      simp only [isrStepStep, hs, Option.some.injEq] at hstep
      subst hstep
      exact .inl ⟨h.sample hs, rfl⟩
  | sampled cnt =>
      simp only [isrStepStep, hs, Option.some.injEq] at hstep
      subst hstep
      exact .inl ⟨h.compare hs, rfl⟩
  | compared cnt wrapped =>
      cases wrapped with
      | false =>
          simp only [isrStepStep, hs, Option.some.injEq] at hstep
          rw [hs] at hpc
          obtain ⟨_, hcs, hm, hw⟩ := hpc
          subst hstep
          exact .inl ⟨h.writeLast hcs hm hw, rfl⟩
      | true =>
          simp only [isrStepStep, hs, Option.some.injEq] at hstep
          subst hstep
          exact .inl ⟨h.readBase hs, rfl⟩
  | baseRead cnt read =>
      simp only [isrStepStep, hs, Option.some.injEq] at hstep
      obtain ⟨base, hadd⟩ : ∃ base, uint64 (read + period) = base := ⟨_, rfl⟩
      rw [hadd] at hstep
      subst hstep
      exact h.writeBase hs hadd
  | baseWritten cnt =>
      simp only [isrStepStep, hs, Option.some.injEq] at hstep
      rw [hs] at hpc
      obtain ⟨hcs, hm, hw, _, _⟩ := hpc
      subst hstep
      exact .inl ⟨h.writeLast hcs hm hw, rfl⟩
  | adjusted cnt =>
      simp only [isrStepStep, hs, Option.some.injEq] at hstep
      obtain ⟨ccr1, hccr⟩ : ∃ ccr1, compareValue cnt = ccr1 := ⟨_, rfl⟩
      rw [hccr] at hstep
      subst hstep
      exact .inl ⟨h.writeCompare hs hccr, rfl⟩

-- A harmless call sees a smaller count than the last one exactly when the base
-- lacks the latest wrap.
theorem Inv.call_sees_wrap (h : Inv k s) (hok : Harmless s .systimeUs) :
    s.timer.cnt < s.usTimLastCount ∧ k + 1 = s.wraps ∨
      ¬s.timer.cnt < s.usTimLastCount ∧ k = s.wraps := by
  have hle := h.lastAt_le
  have hpc := h.atPc
  have hbounds := h.bounds
  unfold Harmless at hok
  rw [h.cnt, h.last] at *
  unfold State.wraps at *
  cases hs : s.pc with
  | idle =>
      rw [hs] at hpc
      obtain ⟨hk, ⟨_, hm, hn⟩ | ⟨_, next, _, hlt, hnext⟩⟩ := hpc
      · unfold Matched Near at *; omega
      · omega
  | entered => rw [hs] at hpc; unfold AtPc Matched Near at hpc; omega
  | sampled cnt => rw [hs] at hpc; unfold AtPc Matched Near at hpc; omega
  | compared cnt wrapped =>
      rw [hs] at hpc hok
      cases wrapped with
      | false =>
          have hnowrap : cnt ≤ s.elapsed % 2 ^ 32 := hok
          unfold AtPc Sampled at hpc
          omega
      | true => exact hok.elim
  | baseRead cnt base =>
      rw [hs] at hpc
      obtain ⟨hsample, hm, old, hold, _, hbound, hcase⟩ := hpc
      unfold Sampled Matched Near at *
      omega
  | baseWritten cnt =>
      rw [hs] at hpc hok
      have hseen : s.lastAt % 2 ^ 32 ≤ s.elapsed % 2 ^ 32 := hok
      unfold AtPc Sampled Matched at hpc
      omega
  | adjusted cnt => rw [hs] at hpc; unfold AtPc Sampled at hpc; omega

theorem Inv.afterCall (h : Inv k s) (hok : Harmless s .systimeUs) (base : Nat)
    (count : Option Nat) :
    AtPc s.wraps { s with
      usCounterBase := base, usTimLastCount := s.timer.cnt, returned := count
      lastAt := s.elapsed } s.pc := by
  have hle := h.lastAt_le
  have hpc := h.atPc
  have hcnt := h.cnt
  unfold Harmless at hok
  cases hs : s.pc with
  | idle =>
      rw [hs] at hpc
      obtain ⟨_, ⟨hif, hm, _⟩ | ⟨hif, next, hccr, hlt, hnext⟩⟩ := hpc
      · exact ⟨rfl, .inl ⟨hif, hm, Nat.le_add_right_of_le hm.2.1⟩⟩
      · exact ⟨rfl, .inr ⟨hif, next, hccr, hlt, Nat.le_trans hnext (Nat.add_le_add_right hle _)⟩⟩
  | entered =>
      rw [hs] at hpc
      obtain ⟨_, hif, hm, _⟩ := hpc
      exact ⟨rfl, hif, hm, Nat.le_add_right_of_le hm.2.1⟩
  | sampled cnt =>
      rw [hs] at hpc hok
      obtain ⟨_, hcs, hm, _, _⟩ := hpc
      have hstill : s.timer.cnt = cnt := hok
      refine ⟨rfl, hcs, hm, Nat.le_add_right_of_le hm.2.1, ?_⟩
      show s.elapsed ≤ s.sampledAt
      unfold Sampled at hcs
      omega
  | compared cnt wrapped =>
      rw [hs] at hpc hok
      cases wrapped with
      | false =>
          obtain ⟨_, hcs, hm, hw⟩ := hpc
          have hnowrap : cnt ≤ s.timer.cnt := hok
          refine ⟨rfl, hcs, hm, ?_⟩
          show s.sampledAt / 2 ^ 32 = s.elapsed / 2 ^ 32
          unfold Sampled at hcs
          omega
      | true => exact hok.elim
  | baseRead cnt base =>
      rw [hs] at hpc
      obtain ⟨hcs, hm, old, hold, hbase, hbound, _⟩ := hpc
      have hsame : s.wraps = old + 1 := by
        unfold State.wraps
        unfold Sampled Matched at *
        omega
      exact ⟨hcs, hm, old, hold, hbase, hbound, .inr ⟨hsame, hsame⟩⟩
  | baseWritten cnt =>
      rw [hs] at hpc
      obtain ⟨hcs, hm, hw, hbound, _⟩ := hpc
      have hsame : s.wraps = k := by
        unfold State.wraps
        unfold Sampled Matched at *
        omega
      exact ⟨hcs, hm, by rw [hsame]; exact hw, by rw [hsame]; exact hbound, .inr rfl⟩
  | adjusted cnt =>
      rw [hs] at hpc
      obtain ⟨_, hcs, _, hccr, hsm⟩ := hpc
      exact ⟨rfl, hcs, hcs.2.1, hccr, hsm⟩

-- A harmless call leaves every wrap in the base and returns it with the count.
theorem Inv.systimeUs (h : Inv k s) (hok : Harmless s .systimeUs) :
    (systimeUsStep s).usCounterBase = uint64 (period * s.wraps) ∧
      (systimeUsStep s).returned = some (uint64 (s.elapsed - s.wraps)) ∧
      Inv s.wraps (systimeUsStep s) := by
  have hbase : (usCounterAdjust s.usCounterBase s.usTimLastCount s.timer.cnt).1 =
      uint64 (period * s.wraps) := by
    rcases h.call_sees_wrap hok with ⟨hlt, hk⟩ | ⟨hge, hk⟩
    · simp only [usCounterAdjust, if_pos hlt, h.base, uint64_add, ← hk, Nat.mul_succ]
    · simp only [usCounterAdjust, if_neg hge, h.base, hk]
  have hcount : (usCounterAdjust s.usCounterBase s.usTimLastCount s.timer.cnt).2.2 =
      uint64 (s.elapsed - s.wraps) := by
    have hsum : period * s.wraps + s.elapsed % 2 ^ 32 = s.elapsed - s.wraps := by
      unfold State.wraps period
      omega
    have hadd : (usCounterAdjust s.usCounterBase s.usTimLastCount s.timer.cnt).2.2 =
        uint64 ((usCounterAdjust s.usCounterBase s.usTimLastCount s.timer.cnt).1 + s.timer.cnt) := rfl
    rw [hadd, hbase, uint64_add, h.cnt, hsum]
  refine ⟨hbase, congrArg some hcount, h.cnt, h.cnt, hbase, Nat.le_refl _, h.afterCall hok _ _⟩

-- Every step keeps the number of wraps in the base or adds the one that the
-- hardware is ahead.
theorem Inv.step (h : Inv k s) {e : Event} (hok : Orderly s e) (hstep : step s e = some t) :
    Inv k t ∧ t.usCounterBase = s.usCounterBase ∨ Inv (k + 1) t ∧ k + 1 = s.wraps := by
  have hbounds := h.bounds
  cases e with
  | tick => cases hstep; exact .inl ⟨h.tick hok.1, rfl⟩
  | isrEnter =>
      refine .inl ⟨h.isrEnter hstep, ?_⟩
      simp only [Systime.step, isrEnterStep] at hstep
      split at hstep
      · split at hstep
        · cases hstep; rfl
        · cases hstep
      · cases hstep
  | isrStep =>
      rcases h.isrStep hstep with hsame | ⟨hnext, hle⟩
      · exact .inl hsame
      · exact .inr ⟨hnext, by omega⟩
  | systimeUs =>
      cases hstep
      obtain ⟨hbase, _, hinv⟩ := h.systimeUs hok.2
      rcases h.call_sees_wrap hok.2 with ⟨_, hk⟩ | ⟨_, hk⟩
      · exact .inr ⟨hk ▸ hinv, hk⟩
      · exact .inl ⟨hk ▸ hinv, by rw [hbase, h.base, hk]⟩

theorem inv_of_reachable (hs : system.ReachableBy Orderly s) : ∃ k, Inv k s := by
  refine hs.invariant (P := fun s => ∃ k, Inv k s) ?_ ?_
  · rintro s rfl
    exact ⟨0, Inv.start⟩
  · rintro s e t ⟨k, h⟩ hok hstep
    rcases h.step hok hstep with ⟨hinv, _⟩ | ⟨hinv, _⟩
    · exact ⟨k, hinv⟩
    · exact ⟨k + 1, hinv⟩

-- In an orderly run the base holds all hardware wraps or all but the latest; a
-- step adds a period only for that one; and every call returns with all of them
-- added, so never a time that is ahead.
theorem wrap_counted_once (hs : system.ReachableBy Orderly s) :
    ∃ k, s.usCounterBase = uint64 (period * k) ∧ k ≤ s.wraps ∧ s.wraps ≤ k + 1 ∧
      (∀ e t, Orderly s e → system.step s e = some t → t.usCounterBase = s.usCounterBase ∨
        t.usCounterBase = uint64 (period * (k + 1)) ∧ k + 1 = s.wraps) ∧
      ∀ t, Harmless s .systimeUs → system.step s .systimeUs = some t →
        t.usCounterBase = uint64 (period * s.wraps) ∧
          ∃ count, t.returned = some count ∧ count ≤ s.elapsed := by
  obtain ⟨k, h⟩ := inv_of_reachable hs
  obtain ⟨hlow, hhigh⟩ := h.bounds
  refine ⟨k, h.base, hlow, hhigh, ?_, ?_⟩
  · intro e t hok hstep
    rcases h.step hok hstep with ⟨_, hsame⟩ | ⟨hinv, hk⟩
    · exact .inl hsame
    · exact .inr ⟨hinv.base, hk⟩
  · intro t hok hstep
    cases hstep
    obtain ⟨hbase, hcount, _⟩ := h.systimeUs hok
    refine ⟨hbase, _, hcount, Nat.le_trans (Nat.mod_le _ _) (Nat.sub_le _ _)⟩

-- The counter on its way to the first compare match.
theorem reachable_before_match (n : Nat) (hn : n < 2 ^ 31 - 1) :
    system.ReachableBy Orderly
      ⟨⟨n, 2 ^ 31 - 1, false, false⟩, 0, 0, .idle, none, n, 0, 0, 0⟩ := by
  induction n with
  | zero => exact .start rfl
  | succ n ih =>
      refine .next (e := .tick) (ih (by omega)) ⟨⟨?_, ?_⟩, trivial⟩ ?_
      · rintro (h | h) <;> cases h
      · intro h; cases h
      · have hcnt : uint32 (n + 1) = n + 1 := uint32_of_lt (by omega)
        have hne : n + 1 ≠ 2 ^ 31 - 1 := by omega
        simp [system, Systime.step, tickStep, Timer.tick, hcnt]
        omega

theorem reachable_match : system.ReachableBy Orderly
    ⟨⟨2147483647, 2147483647, false, true⟩, 0, 0, .idle, none, 2147483647, 0, 2147483647, 0⟩ := by
  refine .next (e := .tick) (reachable_before_match 2147483646 (by decide)) ⟨⟨?_, ?_⟩, trivial⟩ ?_
  · rintro (h | h) <;> cases h
  · intro h; cases h
  · rfl

-- The handler samples the counter, a call sees the next tick, and the handler
-- takes its own older sample for a wrap.
theorem stale_sample_adds_period :
    ¬∀ s, system.ReachableBy Timely s → ∃ k ≤ s.wraps, s.usCounterBase = uint64 (period * k) := by
  intro h
  have hmatch : system.ReachableBy Timely _ := reachable_match.mono fun _ _ hok => hok.1
  have hreach := hmatch.after [.isrEnter, .isrStep, .tick, .systimeUs, .isrStep, .isrStep, .isrStep]
    (by decide)
  obtain ⟨k, hk, hbase⟩ := h _ hreach
  have hzero : k = 0 := Nat.le_zero.mp hk
  subst hzero
  revert hbase
  decide

-- The handler of the first match, with a call right after its sample.
theorem wrap_counted_once_run :
    ∃ s : State, s.elapsed = 2147483647 ∧ s.pc = .compared 2147483647 false ∧
      ∃ k, s.usCounterBase = uint64 (period * k) ∧ k ≤ s.wraps ∧ s.wraps ≤ k + 1 := by
  have hreach := reachable_match.after [.isrEnter, .isrStep, .systimeUs, .isrStep] (by decide)
  obtain ⟨k, hbase, hlow, hhigh, _⟩ := wrap_counted_once hreach
  exact ⟨_, rfl, rfl, k, hbase, hlow, hhigh⟩

end Systime

end Carbon
