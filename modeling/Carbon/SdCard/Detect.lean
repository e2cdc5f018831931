import Carbon.Library.Transition
import Mathlib.Data.List.Chain

namespace Carbon

namespace SdCard

-- What BSP_SD_IsDetected reads from the pin.
inductive Detected
  | present
  | notPresent
  deriving DecidableEq

def Detected.opposite : Detected → Detected
  | .present => .notPresent
  | .notPresent => .present

inductive DetectPinStatus
  | stable
  | checkingStability
  | suppressed
  deriving DecidableEq

-- The callback registered for the period of the pin timer.
inductive PeriodCallback
  | dummy
  | suppression
  | stability
  deriving DecidableEq

structure Release where
  announced : Detected
  pin : Detected

namespace Detect

-- `pending` is the latched EXTI interrupt, `irqEnabled` its line. The timer may
-- expire at any time while it is running, so its counter is left out. `boot` is
-- the state announced by BSP_SD_Init_Detect_Notify; the releases after it are
-- kept with the pin level they were made at, the newest first. `edges` counts the
-- edges since the last callback in the stable state, or since boot; the code has
-- no such counter.
structure State where
  pin : Detected
  pending : Bool
  irqEnabled : Bool
  detectPinStatus : DetectPinStatus
  callback : PeriodCallback
  running : Bool
  boot : Detected
  releases : List Release
  edges : Nat

def State.announced (s : State) : Detected :=
  match s.releases with
  | [] => s.boot
  | last :: _ => last.announced

inductive Event
  | edge
  | detectCallback
  | periodElapsed

def releaseDetect (s : State) (announced : Detected) : State :=
  { s with releases := ⟨announced, s.pin⟩ :: s.releases }

def stopCounter (s : State) : State := { s with running := false }

def startDetectPinSuppression (s : State) : State :=
  { s with callback := .suppression, running := true }

def detectPinCheckStability (s : State) : State :=
  { s with callback := .stability, running := true }

def detectPinSuppressionCallback (s : State) : State :=
  { stopCounter s with irqEnabled := true, detectPinStatus := .stable }

def detectPinCheckStabilityCallback (s : State) : State :=
  releaseDetect { stopCounter s with detectPinStatus := .stable } .present

def detectCallback (s : State) : State :=
  match s.detectPinStatus, s.pin with
  | .stable, .present =>
      { detectPinCheckStability s with detectPinStatus := .checkingStability }
  | .stable, .notPresent =>
      releaseDetect (startDetectPinSuppression
        { s with detectPinStatus := .suppressed, irqEnabled := false, pending := false }) .notPresent
  | .checkingStability, _ => s
  | .suppressed, _ => s

def step (s : State) : Event → Option State
  | .edge => some { s with pin := s.pin.opposite, pending := true, edges := s.edges + 1 }
  | .detectCallback =>
      if s.pending ∧ s.irqEnabled then
        some { detectCallback { s with pending := false } with
          edges := if s.detectPinStatus = .stable then 0 else s.edges }
      else none
  | .periodElapsed =>
      if s.running then
        match s.callback with
        | .dummy => some s
        | .suppression => some (detectPinSuppressionCallback s)
        | .stability => some (detectPinCheckStabilityCallback s)
      else none

-- BSP_SD_DetectITConfig is through. An edge before the pin was read may have
-- left its interrupt pending.
def system : Transition.System State Event where
  initial s := s.pin = s.boot ∧ s.irqEnabled = true ∧ s.detectPinStatus = .stable ∧
    s.callback = .dummy ∧ s.running = false ∧ s.releases = [] ∧ s.edges = 0
  step := step

-- The announced states alternate, and each is the pin's at its release.
def OnTrack (s : State) : Prop :=
  (s.releases.map Release.announced ++ [s.boot]).IsChain (· ≠ ·) ∧
    ∀ release ∈ s.releases, release.announced = release.pin

-- In the stable state the interrupt is served after edges that leave the pin at the
-- other level, and those of a stability check leave it as it was.
def Steady (s : State) : Event → Prop
  | .edge => True
  | .detectCallback => s.detectPinStatus = .stable → s.edges % 2 = 1
  | .periodElapsed => s.callback = .stability → s.edges % 2 = 0

instance (s : State) : DecidablePred (Steady s)
  | .edge => isTrue trivial
  | .detectCallback => inferInstanceAs (Decidable (s.detectPinStatus = .stable → s.edges % 2 = 1))
  | .periodElapsed => inferInstanceAs (Decidable (s.callback = .stability → s.edges % 2 = 0))

-- The timer runs for the state it was started in, and stability is checked only
-- for a card that was removed.
def AtStatus (s : State) : DetectPinStatus → Prop
  | .stable => s.running = false
  | .checkingStability => s.running = true ∧ s.callback = .stability ∧ s.announced = .notPresent
  | .suppressed => s.running = true ∧ s.callback = .suppression

-- The level of the pin at the last callback in the stable state, or at boot.
def State.seen (s : State) : Detected :=
  match s.detectPinStatus with
  | .checkingStability => .present
  | .stable | .suppressed => s.announced

structure Inv (s : State) : Prop where
  onTrack : OnTrack s
  atStatus : AtStatus s s.detectPinStatus
  seen : s.edges % 2 = 0 ↔ s.pin = s.seen

variable {s t : State}

theorem onTrack_release_iff (announced : Detected) :
    OnTrack (releaseDetect s announced) ↔
      announced ≠ s.announced ∧ announced = s.pin ∧ OnTrack s := by
  unfold OnTrack releaseDetect State.announced
  cases s.releases with
  | nil => simp
  | cons last rest =>
      simp only [List.map_cons, List.cons_append, List.isChain_cons_cons, List.forall_mem_cons]
      tauto

theorem Detected.eq_of_ne_present {level : Detected} (h : level ≠ .present) : level = .notPresent := by
  cases level with
  | present => exact absurd rfl h
  | notPresent => rfl

theorem Detected.opposite_eq_iff {level other : Detected} : level.opposite = other ↔ level ≠ other := by
  cases level <;> cases other <;> decide

theorem Inv.start (hs : system.initial s) : Inv s := by
  obtain ⟨hboot, _, hstable, _, hrunning, hnone, hedges⟩ := hs
  refine ⟨?_, ?_, ?_⟩
  · unfold OnTrack
    rw [hnone]
    simp
  · rw [hstable]
    exact hrunning
  · unfold State.seen State.announced
    rw [hedges, hstable, hnone]
    exact iff_of_true rfl hboot

theorem Inv.edge (h : Inv s) :
    Inv { s with pin := s.pin.opposite, pending := true, edges := s.edges + 1 } where
  onTrack := h.onTrack
  atStatus := h.atStatus
  seen := by
    have hturned : (s.edges + 1) % 2 = 0 ↔ ¬s.edges % 2 = 0 := by omega
    exact (hturned.trans (not_congr h.seen)).trans Detected.opposite_eq_iff.symm

theorem Inv.detectCallback (h : Inv s) (hok : Steady s .detectCallback) (pending : Bool) :
    Inv { Detect.detectCallback { s with pending := pending } with
      edges := if s.detectPinStatus = .stable then 0 else s.edges } := by
  have hat := h.atStatus
  have hseen := h.seen
  unfold State.seen at hseen
  cases hstatus : s.detectPinStatus with
  | stable =>
      rw [hstatus] at hseen
      have hne : s.pin ≠ s.announced := fun heq => by
        have hodd := hok hstatus
        have heven := hseen.mpr heq
        omega
      cases hpin : s.pin with
      | present =>
          simp only [Detect.detectCallback]
          rw [hpin] at hne
          exact ⟨h.onTrack, ⟨rfl, rfl, Detected.eq_of_ne_present hne.symm⟩, iff_of_true rfl rfl⟩
      | notPresent =>
          simp only [Detect.detectCallback]
          rw [hpin] at hne
          exact ⟨(onTrack_release_iff _).mpr ⟨hne, rfl, h.onTrack⟩, ⟨rfl, rfl⟩, iff_of_true rfl rfl⟩
  | checkingStability =>
      simp only [Detect.detectCallback]
      rw [hstatus] at hat hseen
      exact ⟨h.onTrack, hat, hseen⟩
  | suppressed =>
      simp only [Detect.detectCallback]
      rw [hstatus] at hat hseen
      exact ⟨h.onTrack, hat, hseen⟩

theorem Inv.periodElapsed (h : Inv s) (hok : Steady s .periodElapsed)
    (hstep : step s .periodElapsed = some t) : Inv t := by
  have hat := h.atStatus
  have hseen := h.seen
  unfold State.seen at hseen
  simp only [Detect.step] at hstep
  split at hstep
  · rename_i hrunning
    cases hstatus : s.detectPinStatus with
    | stable =>
        rw [hstatus] at hat
        exact absurd (hrunning.symm.trans hat) (by decide)
    | checkingStability =>
        rw [hstatus] at hat hseen
        obtain ⟨_, hcallback, hannounced⟩ := hat
        rw [hcallback] at hstep
        cases hstep
        have hne : Detected.present ≠ s.announced := by rw [hannounced]; decide
        have hpin := hseen.mp (hok hcallback)
        exact ⟨(onTrack_release_iff _).mpr ⟨hne, hpin.symm, h.onTrack⟩, rfl, hseen⟩
    | suppressed =>
        rw [hstatus] at hat hseen
        rw [hat.2] at hstep
        cases hstep
        exact ⟨h.onTrack, rfl, hseen⟩
  · cases hstep

theorem Inv.step (h : Inv s) {e : Event} (hok : Steady s e) (hstep : Detect.step s e = some t) :
    Inv t := by
  cases e with
  | edge =>
      cases hstep
      exact h.edge
  | detectCallback =>
      simp only [Detect.step] at hstep
      split at hstep
      · cases hstep
        exact h.detectCallback hok false
      · cases hstep
  | periodElapsed => exact h.periodElapsed hok hstep

-- Any other step announces a state twice or against the pin, at once or at the
-- end of the stability check it starts.
theorem Inv.derails (h : Inv s) {e : Event} (hbad : ¬Steady s e) (hstep : Detect.step s e = some t) :
    ∃ labels u, system.run t labels = some u ∧ ¬OnTrack u := by
  have hseen := h.seen
  unfold State.seen at hseen
  cases e with
  | edge => exact absurd trivial hbad
  | detectCallback =>
      obtain ⟨hstatus, hodd⟩ := Classical.not_imp.mp hbad
      rw [hstatus] at hseen
      have hpin : s.pin = s.announced := hseen.mp (by omega)
      simp only [Detect.step] at hstep
      split at hstep
      · cases hlevel : s.pin with
        | present =>
            -- the check of a card that is in already ends with its second insertion
            simp only [Detect.detectCallback, hstatus, hlevel, Option.some.injEq] at hstep
            subst hstep
            refine ⟨[.periodElapsed], _, rfl, fun htrack => ?_⟩
            have hne := ((onTrack_release_iff _).mp htrack).1
            exact hne (hlevel.symm.trans hpin)
        | notPresent =>
            simp only [Detect.detectCallback, hstatus, hlevel, Option.some.injEq] at hstep
            subst hstep
            refine ⟨[], _, rfl, fun htrack => ?_⟩
            have hne := ((onTrack_release_iff _).mp htrack).1
            exact hne (hlevel.symm.trans hpin)
      · cases hstep
  | periodElapsed =>
      obtain ⟨hcallback, hodd⟩ := Classical.not_imp.mp hbad
      have hat := h.atStatus
      simp only [Detect.step] at hstep
      split at hstep
      · rename_i hrunning
        cases hstatus : s.detectPinStatus with
        | stable =>
            rw [hstatus] at hat
            exact absurd (hrunning.symm.trans hat) (by decide)
        | checkingStability =>
            rw [hstatus] at hseen
            rw [hcallback] at hstep
            cases hstep
            refine ⟨[], _, rfl, fun htrack => hodd (hseen.mpr ?_)⟩
            exact ((onTrack_release_iff _).mp htrack).2.1.symm
        | suppressed =>
            rw [hstatus] at hat
            exact absurd (hcallback.symm.trans hat.2) (by decide)
      · cases hstep

theorem inv_of_reachable (hs : system.ReachableBy Steady s) : Inv s :=
  hs.invariant (P := Inv) (fun _ => Inv.start) fun _ _ _ h hok hstep => h.step hok hstep

-- In a steady run the releases alternate and are true to the pin; the first
-- step that is not steady can be continued to one that does not or is not.
theorem releases_alternate (hs : system.ReachableBy Steady s) :
    OnTrack s ∧ ∀ e t, ¬Steady s e → system.step s e = some t →
      ∃ labels u, system.run t labels = some u ∧ ¬OnTrack u :=
  have hinv := inv_of_reachable hs
  ⟨hinv.onTrack, fun _ _ hbad hstep => hinv.derails hbad hstep⟩

-- A card is pulled and the contacts bounce while the line is masked.
theorem bounce_announces_removal_twice : ¬∀ s, system.Reachable s → OnTrack s := by
  intro h
  have htrack := h _ (.get system (fun _ _ => True) [.edge, .detectCallback, .edge, .edge, .periodElapsed,
    .detectCallback] (s := ⟨.present, false, true, .stable, .dummy, false, .present, [], 0⟩)
    ⟨rfl, rfl, rfl, rfl, rfl, rfl, rfl⟩ (by decide))
  have hne := ((onTrack_release_iff _).mp htrack).1
  exact hne rfl

def empty : State := ⟨.notPresent, false, true, .stable, .dummy, false, .notPresent, [], 0⟩

-- A card is put in, bounces during the check, and is pulled again.
def insertion : List Event :=
  [.edge, .detectCallback, .edge, .edge, .detectCallback, .periodElapsed, .edge, .detectCallback, .periodElapsed]

theorem insertion_runs : (system.runBy Steady empty insertion).isSome := by decide

theorem releases_alternate_run :
    ∃ s, system.runBy Steady empty insertion = some s ∧
      s.releases.map Release.announced = [.notPresent, .present] ∧ OnTrack s :=
  have hstart : system.ReachableBy Steady empty := .start ⟨rfl, rfl, rfl, rfl, rfl, rfl, rfl⟩
  ⟨_, (Option.some_get insertion_runs).symm, by decide,
    (releases_alternate (hstart.after insertion insertion_runs)).1⟩

end Detect

end SdCard

end Carbon
