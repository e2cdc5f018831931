import Carbon.Ethernet.Receive
import Mathlib.Tactic.SplitIfs

namespace Carbon

namespace Receive

variable {s t : State}

-- The tests of low_level_input: the DMA is past the descriptor to process and
-- does not own it.
def Completed (s : State) : Prop :=
  s.toProcess ≠ s.current ∧ owned (s.desc s.toProcess).desc3 = false

instance : DecidablePred Completed := fun s =>
  inferInstanceAs (Decidable (s.toProcess ≠ s.current ∧ owned (s.desc s.toProcess).desc3 = false))

-- Neither a token nor an interrupt that brings one is pending.
def Idle (s : State) : Prop := s.token = false ∧ s.ri = false

instance : DecidablePred Idle := fun s => inferInstanceAs (Decidable (s.token = false ∧ s.ri = false))

-- carbon_lwip_input is blocked over a frame it could take.
def Stranded (s : State) : Prop :=
  s.pc = .wait ∧ Idle s ∧ Completed s ∧ s.poolUsed ≠ rxPoolSize

-- A discard that ends the drain loop, and a pbuf that goes back into the empty
-- pool, find no completed descriptor without a further token or interrupt.
def DrainedAt (s : State) : Option Holder → Prop
  | some ⟨_, true, .done⟩ => Idle s → Completed s → s.poolUsed = rxPoolSize
  | _ => True

def Drained (s : State) : Event → Prop
  | .prepare => DrainedAt s s.holder
  | .poolFree _ => s.pc = .wait → Idle s → s.poolUsed = rxPoolSize → ¬Completed s
  | .input | .inputFailed | .free _ | .lock _ | .dmaStore | .dmaComplete _ | .isrRelease | .isrClear => True

instance (s : State) (holder : Option Holder) : Decidable (DrainedAt s holder) := by
  unfold DrainedAt
  split <;> infer_instance

instance (s : State) : DecidablePred (Drained s)
  | .prepare => inferInstanceAs (Decidable (DrainedAt s s.holder))
  | .poolFree _ =>
      inferInstanceAs (Decidable (s.pc = .wait → Idle s → s.poolUsed = rxPoolSize → ¬Completed s))
  | .input | .inputFailed | .free _ | .lock _ | .dmaStore | .dmaComplete _ | .isrRelease | .isrClear =>
      isTrue trivial

structure Awake (s : State) : Prop where
  stranded : ¬Stranded s
  isr : s.isrReleased = true → s.token = true

-- A thread that does not block strands nothing.
theorem Awake.move (h : Awake s) (hpc : t.pc ≠ .wait) (hisr : t.isrReleased = s.isrReleased)
    (htoken : t.token = s.token) : Awake t :=
  ⟨fun hstranded => hpc hstranded.1, by rw [hisr, htoken]; exact h.isr⟩

-- Nor does a step that only takes a descriptor away.
theorem Awake.keep (h : Awake s) (hpc : t.pc = s.pc) (hisr : t.isrReleased = s.isrReleased)
    (htoken : t.token = s.token) (hri : t.ri = s.ri) (hpool : t.poolUsed = s.poolUsed)
    (hcompleted : Completed t → Completed s) : Awake t := by
  refine ⟨?_, by rw [hisr, htoken]; exact h.isr⟩
  rintro ⟨hwait, ⟨hnone, hquiet⟩, hdone, hfree⟩
  exact h.stranded ⟨hpc ▸ hwait, ⟨htoken ▸ hnone, hri ▸ hquiet⟩, hcompleted hdone, hpool ▸ hfree⟩

theorem judge_wait {desc3 : BitVec 32} {buffer : Buffer} {length : Nat}
    (h : judge desc3 buffer length = .wait) : owned desc3 = true := by
  unfold judge at h
  split_ifs at h with howned
  exact howned

theorem owned_prepareRxDesc {buffer : Buffer} : owned (prepareRxDesc buffer).desc3 = true := by
  revert buffer
  decide

theorem Awake.inputStep (h : Awake s) (hidle : s.isrReleased = false) (hstep : inputStep s = some t) :
    Awake t := by
  unfold Receive.inputStep at hstep
  cases hpc : s.pc with
  | discarding | freeing => rw [hpc] at hstep; cases hstep
  | wait =>
      rw [hpc] at hstep
      obtain ⟨_, hstep⟩ := Option.ite_none_right_eq_some.mp hstep
      cases hstep
      refine ⟨fun hstranded => (by cases hstranded.1), fun hreleased => ?_⟩
      exact absurd (hidle.symm.trans hreleased) (by decide)
  | drain | input | deliver =>
      rw [hpc] at hstep
      cases hstep
      exact h.move nofun rfl rfl
  | looked buffer length =>
      rw [hpc] at hstep
      cases hstep
      refine ⟨?_, h.isr⟩
      rintro ⟨hwait, _, ⟨hne, _⟩, _⟩
      dsimp only at hwait hne
      rw [if_neg hne] at hwait
      cases hwait
  | passed buffer length =>
      rw [hpc] at hstep
      cases hstep
      refine ⟨?_, h.isr⟩
      rintro ⟨hwait, _, ⟨_, howned⟩, _⟩
      exact absurd ((judge_wait hwait).symm.trans howned) (by decide)
  | discard buffer =>
      rw [hpc] at hstep
      obtain ⟨_, hstep⟩ := Option.ite_none_right_eq_some.mp hstep
      cases hstep
      exact h.move nofun rfl rfl
  | alloc buffer =>
      rw [hpc] at hstep
      cases hstep
      unfold Receive.alloc
      split
      · rename_i hempty
        exact ⟨fun hstranded => hstranded.2.2.2 hempty, h.isr⟩
      · exact h.move nofun rfl rfl

theorem completed_writeDesc {holder : Holder} {tail : Pointer} (h : Completed (writeDesc s holder tail)) :
    Completed s := by
  obtain ⟨hne, howned⟩ := h
  refine ⟨hne, ?_⟩
  unfold writeDesc Receive.reach at howned
  dsimp only at howned
  by_cases htail : s.toProcess = tail
  · rw [htail, Function.update_self] at howned
    exact absurd (owned_prepareRxDesc.symm.trans howned) (by decide)
  · rw [Function.update_of_ne htail] at howned
    exact howned

theorem Awake.prepareStep (h : Awake s) (hok : DrainedAt s s.holder) (hstep : prepareStep s = some t) :
    Awake t := by
  unfold Receive.prepareStep at hstep
  cases hholder : s.holder with
  | none => rw [hholder] at hstep; cases hstep
  | some holder =>
      rw [hholder] at hstep hok
      obtain ⟨buffer, discard, stage⟩ := holder
      cases stage with
      | error => cases hstep
      | entered | tailRead =>
          cases hstep
          exact h.keep rfl rfl rfl rfl rfl id
      | written tail =>
          cases hstep
          exact h.keep rfl rfl rfl rfl rfl id
      | toProcessRead tail toProcess =>
          cases hstep
          dsimp only [checkPointers]
          split
          · exact h.keep rfl rfl rfl rfl rfl id
          · exact h.keep rfl rfl rfl rfl rfl id
      | checked tail =>
          cases hstep
          exact h.keep rfl rfl rfl rfl rfl completed_writeDesc
      | done =>
          cases hstep
          cases discard with
          | false => exact h.keep rfl rfl rfl rfl rfl id
          | true => exact ⟨fun hstranded => hstranded.2.2.2 (hok hstranded.2.1 hstranded.2.2.1), h.isr⟩

theorem Awake.poolFree (h : Awake s) {buffer : Buffer}
    (hok : s.pc = .wait → Idle s → s.poolUsed = rxPoolSize → ¬Completed s) : Awake (poolFree s buffer) := by
  refine ⟨?_, h.isr⟩
  rintro ⟨hwait, hidle, hcompleted, _⟩
  have hpc : s.pc = .wait := by
    dsimp only [Receive.poolFree] at hwait
    split at hwait
    · cases hwait
    · exact hwait
  by_cases hempty : s.poolUsed = rxPoolSize
  · exact hok hpc hidle hempty hcompleted
  · exact h.stranded ⟨hpc, hidle, hcompleted, hempty⟩

theorem Awake.step (h : Awake s) {e : Event} (hok : Drained s e) (hstep : Receive.step s e = some t) : Awake t := by
  have hcases := step_cases hstep
  cases e with
  | input => exact h.inputStep hcases.1 hcases.2
  | prepare => exact h.prepareStep hok hcases.2
  | inputFailed =>
      obtain ⟨_, buffer, _, _, rfl⟩ := hcases
      exact h.move nofun rfl rfl
  | free buffer =>
      obtain ⟨_, _, rfl⟩ := hcases
      exact h.keep rfl rfl rfl rfl rfl id
  | lock buffer =>
      obtain ⟨_, _, _, rfl⟩ := hcases
      exact h.keep rfl rfl rfl rfl rfl id
  | poolFree buffer =>
      obtain ⟨_, _, rfl⟩ := hcases
      exact h.poolFree hok
  | dmaStore =>
      obtain ⟨_, rfl⟩ := hcases
      exact h.keep rfl rfl rfl rfl rfl id
  | dmaComplete status =>
      obtain ⟨_, rfl⟩ := hcases
      exact ⟨fun hstranded => (by cases hstranded.2.1.2), h.isr⟩
  | isrRelease =>
      obtain ⟨_, _, rfl⟩ := hcases
      exact ⟨fun hstranded => (by cases hstranded.2.1.1), fun _ => rfl⟩
  | isrClear =>
      obtain ⟨hreleased, rfl⟩ := hcases
      refine ⟨fun hstranded => ?_, nofun⟩
      exact absurd ((h.isr hreleased).symm.trans hstranded.2.1.1) (by decide)

theorem awake_of_reachable (hs : system.ReachableBy Drained s) : Awake s := by
  refine hs.invariant (P := Awake) ?_ fun s e t h hok hstep => h.step hok hstep
  rintro s rfl
  exact ⟨fun hstranded => hstranded.2.2.1.1 rfl, nofun⟩

-- Any other such discard or return to the pool strands a frame.
theorem stranded_of_not_drained {e : Event} (hbad : ¬Drained s e) (hstep : step s e = some t) :
    Stranded t := by
  have hcases := step_cases hstep
  cases e with
  | input | inputFailed | free | lock | dmaStore | dmaComplete | isrRelease | isrClear =>
      exact absurd trivial hbad
  | poolFree buffer =>
      obtain ⟨_, _, rfl⟩ := hcases
      obtain ⟨hpc, hbad⟩ := Classical.not_imp.mp hbad
      obtain ⟨hidle, hbad⟩ := Classical.not_imp.mp hbad
      obtain ⟨hempty, hcompleted⟩ := Classical.not_imp.mp hbad
      refine ⟨?_, hidle, not_not.mp hcompleted, ?_⟩
      · dsimp only [poolFree]
        rw [hpc, if_neg nofun]
      · dsimp only [poolFree]
        rw [hempty]
        decide
  | prepare =>
      obtain ⟨_, hstep⟩ := hcases
      unfold prepareStep at hstep
      have hbad : ¬DrainedAt s s.holder := hbad
      unfold DrainedAt at hbad
      split at hbad
      · rename_i buffer hholder
        rw [hholder] at hstep
        cases hstep
        obtain ⟨hidle, hbad⟩ := Classical.not_imp.mp hbad
        obtain ⟨hcompleted, hfree⟩ := Classical.not_imp.mp hbad
        exact ⟨rfl, hidle, hcompleted, hfree⟩
      · exact absurd trivial hbad

-- In a run in which no discard leaves a completed descriptor behind without a
-- further token or interrupt, and none waits for the pool to be refilled, the input
-- thread is never blocked over a frame; the first other step leaves one behind.
theorem frames_drained (hs : system.ReachableBy Drained s) :
    ¬Stranded s ∧ ∀ e t, ¬Drained s e → system.step s e = some t → Stranded t :=
  ⟨(awake_of_reachable hs).stranded, fun _ _ hbad hstep => stranded_of_not_drained hbad hstep⟩

-- A context descriptor and a frame behind it complete before the interrupt.
theorem frame_stranded : ¬∀ s, system.Reachable s → ¬Stranded s := by
  intro h
  have hreach := Transition.System.ReachableBy.get system (fun _ _ => True)
    (List.flatten [[.dmaComplete 0x40000000#32, .dmaComplete 0x3000003C#32, .isrRelease, .isrClear],
      List.replicate 5 .input, List.replicate 6 .prepare])
    (s := start) rfl (by decide)
  have hstranded := h _ hreach
  revert hstranded
  unfold Stranded
  decide

theorem frames_drained_run : ∃ s : State, s.live = [2, 0] ∧ s.toProcess = 3 ∧ ¬Stranded s :=
  have hreach := Transition.System.ReachableBy.get system Drained
    (List.flatten [[.dmaComplete 0x3000003C#32, .dmaComplete 0x40000000#32, .isrRelease, .isrClear],
      List.replicate 11 .input, [.dmaComplete 0x3000003C#32], List.replicate 6 .prepare,
      [.isrRelease, .isrClear], List.replicate 6 .input])
    (s := start) rfl (by decide)
  ⟨_, rfl, rfl, (frames_drained hreach).1⟩

end Receive

end Carbon
