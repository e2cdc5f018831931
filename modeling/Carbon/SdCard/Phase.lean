import Carbon.SdCard.Detect

namespace Carbon

namespace SdCard

namespace Phase

-- Where SDThread::run stands: waiting in BSP_SD_Init, in the rest of it,
-- reading the card and mounting, waiting in BSP_SD_DeInit, in the rest of it
-- and unmounting, or in one of its endless delay loops.
inductive Pc
  | init
  | initialising
  | mounting
  | deInit
  | unmounting
  | halted
  deriving DecidableEq

-- The functions that consume a token.
inductive Consumer
  | init
  | deInit

-- What a token of semDetect must have been released for.
def Consumer.kind : Consumer → Detected
  | .init => .present
  | .deInit => .notPresent

-- The token carries the state it was released for; `next` is the state of the
-- next release. The last two fields are for the proofs: the tokens consumed and
-- the number of releases that found the binary semaphore full.
structure State where
  token : Option Detected
  next : Detected
  pc : Pc
  consumed : List (Consumer × Detected)
  dropped : Nat

inductive Event
  | release
  | acquire
  | proceed (ok : Bool)

def release (s : State) : State :=
  match s.token with
  | none => { s with token := some s.next, next := s.next.opposite }
  | some _ => { s with next := s.next.opposite, dropped := s.dropped + 1 }

def acquire (s : State) : Option State :=
  match s.token, s.pc with
  | some kind, .init =>
      some { s with token := none, pc := .initialising, consumed := (.init, kind) :: s.consumed }
  | some kind, .deInit =>
      some { s with token := none, pc := .unmounting, consumed := (.deInit, kind) :: s.consumed }
  | _, _ => none

-- The loop between its two waits; a failed initialisation or driver
-- registration halts it, mount and format errors do not.
def proceed (s : State) (ok : Bool) : Option State :=
  match s.pc with
  | .initialising => some { s with pc := if ok then .mounting else .halted }
  | .mounting => some { s with pc := if ok then .deInit else .halted }
  | .unmounting => some { s with pc := .init }
  | .init | .deInit | .halted => none

def step (s : State) : Event → Option State
  | .release => some (release s)
  | .acquire => acquire s
  | .proceed ok => proceed s ok

-- BSP_SD_Init_Detect_Notify releases a token for a card that is in at boot.
def system : Transition.System State Event where
  initial s := s = ⟨none, .present, .init, [], 0⟩ ∨ s = ⟨some .present, .notPresent, .init, [], 0⟩
  step := step

def InPhase (s : State) : Prop := ∀ entry ∈ s.consumed, entry.2 = entry.1.kind

-- The state that the next consumer waits for.
def Pc.wanted : Pc → Detected
  | .init | .unmounting => .present
  | .initialising | .mounting | .deInit | .halted => .notPresent

-- A release finds the semaphore empty only after an even number of releases
-- that found it full, unless the thread has halted.
def EvenlyDropped (s : State) : Event → Prop
  | .release => s.token = none → s.pc ≠ .halted → s.dropped % 2 = 0
  | .acquire | .proceed _ => True

instance (s : State) : DecidablePred (EvenlyDropped s)
  | .release => inferInstanceAs (Decidable (s.token = none → s.pc ≠ .halted → s.dropped % 2 = 0))
  | .acquire | .proceed _ => isTrue trivial

-- Every release so far was consumed, dropped or is the token, so the next one
-- is the wanted one when the last two make an even number.
structure Inv (s : State) : Prop where
  consumed : InPhase s
  token : s.pc ≠ .halted → ∀ kind, s.token = some kind → kind = s.pc.wanted
  parity : s.pc ≠ .halted →
    (s.next = s.pc.wanted ↔ (s.dropped + if s.token.isSome then 1 else 0) % 2 = 0)

variable {s t : State}

theorem opposite_eq_iff (a b : Detected) : a.opposite = b ↔ a ≠ b := by
  cases a <;> cases b <;> decide

theorem eq_opposite_iff (a b : Detected) : a = b.opposite ↔ a ≠ b := by
  cases a <;> cases b <;> decide

theorem Inv.start (hs : system.initial s) : Inv s := by
  rcases hs with rfl | rfl
  · exact ⟨fun _ h => absurd h (by simp), fun _ _ h => (by cases h), fun _ => by decide⟩
  · exact ⟨fun _ h => absurd h (by simp), fun _ _ h => (by cases h; rfl), fun _ => by decide⟩

theorem Inv.release (h : Inv s) (hok : EvenlyDropped s .release) : Inv (Phase.release s) := by
  have hparity := h.parity
  unfold Phase.release
  cases htoken : s.token with
  | none =>
      rw [htoken] at hparity
      refine ⟨h.consumed, ?_, ?_⟩
      · intro hlive kind hkind
        obtain rfl := Option.some.inj hkind
        exact (hparity hlive).mpr (hok htoken hlive)
      · intro hlive
        have heven := hok htoken hlive
        have hnext := (hparity hlive).mpr heven
        simp only [opposite_eq_iff, Option.isSome_some, if_true]
        refine iff_of_false (fun hne => hne hnext) ?_
        omega
  | some kind =>
      rw [htoken] at hparity
      refine ⟨h.consumed, ?_, ?_⟩
      · intro hlive other hother
        exact h.token hlive other (htoken.trans hother)
      · intro hlive
        have hiff := hparity hlive
        simp only [opposite_eq_iff, Option.isSome_some, if_true, ne_eq, hiff] at hiff ⊢
        omega

-- Both consumers take the token they wait for and then wait for the other.
theorem Inv.consume (h : Inv s) {kind : Detected} {consumer : Consumer} {pc : Pc}
    (hlive : s.pc ≠ .halted) (hkind : s.token = some kind) (hwanted : s.pc.wanted = consumer.kind)
    (hpc : pc.wanted = s.pc.wanted.opposite) :
    Inv { s with token := none, pc := pc, consumed := (consumer, kind) :: s.consumed } := by
  have hparity := h.parity hlive
  refine ⟨?_, fun _ _ hnone => (by cases hnone), fun _ => ?_⟩
  · intro entry hentry
    rcases List.mem_cons.mp hentry with rfl | hold
    · exact (h.token hlive kind hkind).trans hwanted
    · exact h.consumed entry hold
  · rw [hkind] at hparity
    simp only [hpc, eq_opposite_iff, Option.isSome_none, Option.isSome_some, Bool.false_eq_true,
      if_true, if_false, ne_eq] at hparity ⊢
    rw [hparity]
    omega

theorem Inv.acquire (h : Inv s) (hstep : Phase.acquire s = some t) : Inv t := by
  unfold Phase.acquire at hstep
  split at hstep
  · rename_i kind hkind hpc
    cases hstep
    exact h.consume (by rw [hpc]; decide) hkind (by rw [hpc]; rfl) (by rw [hpc]; rfl)
  · rename_i kind hkind hpc
    cases hstep
    exact h.consume (by rw [hpc]; decide) hkind (by rw [hpc]; rfl) (by rw [hpc]; rfl)
  · cases hstep

-- The loop goes on to the wait it was on its way to, or halts.
theorem Inv.proceed (h : Inv s) {ok : Bool} (hstep : Phase.proceed s ok = some t) : Inv t := by
  have hgo : ∀ pc : Pc, s.pc ≠ .halted → pc.wanted = s.pc.wanted →
      Inv { s with pc := pc } := fun pc hlive hwanted =>
    ⟨h.consumed, fun _ => by rw [hwanted]; exact h.token hlive,
      fun _ => by rw [hwanted]; exact h.parity hlive⟩
  have hhalt : Inv { s with pc := .halted } :=
    ⟨h.consumed, fun hlive => absurd rfl hlive, fun hlive => absurd rfl hlive⟩
  cases hpc : s.pc with
  | initialising =>
      simp only [Phase.proceed, hpc] at hstep
      cases hstep
      cases ok with
      | true => exact hgo .mounting (by rw [hpc]; decide) (by rw [hpc]; rfl)
      | false => exact hhalt
  | mounting =>
      simp only [Phase.proceed, hpc] at hstep
      cases hstep
      cases ok with
      | true => exact hgo .deInit (by rw [hpc]; decide) (by rw [hpc]; rfl)
      | false => exact hhalt
  | unmounting =>
      simp only [Phase.proceed, hpc] at hstep
      cases hstep
      exact hgo .init (by rw [hpc]; decide) (by rw [hpc]; rfl)
  | init | deInit | halted =>
      simp only [Phase.proceed, hpc] at hstep
      cases hstep

theorem inv_of_reachable (hs : system.ReachableBy EvenlyDropped s) : Inv s := by
  refine hs.invariant (P := Inv) (fun _ => Inv.start) fun s e t h hok hstep => ?_
  cases e with
  | release =>
      cases hstep
      exact h.release hok
  | acquire => exact h.acquire hstep
  | proceed ok => exact h.proceed hstep

-- The thread can always reach its next wait and take the token there.
theorem consumes (hlive : s.pc ≠ .halted) {kind : Detected} (hkind : s.token = some kind) :
    ∃ labels u consumer, system.run s labels = some u ∧
      u.consumed = (consumer, kind) :: s.consumed ∧ consumer.kind = s.pc.wanted := by
  obtain ⟨token, next, pc, consumed, dropped⟩ := s
  obtain rfl : token = some kind := hkind
  cases pc with
  | init => exact ⟨[.acquire], _, .init, rfl, rfl, rfl⟩
  | initialising =>
      exact ⟨[.proceed true, .proceed true, .acquire], _, .deInit, rfl, rfl, rfl⟩
  | mounting => exact ⟨[.proceed true, .acquire], _, .deInit, rfl, rfl, rfl⟩
  | deInit => exact ⟨[.acquire], _, .deInit, rfl, rfl, rfl⟩
  | unmounting => exact ⟨[.proceed true, .acquire], _, .init, rfl, rfl, rfl⟩
  | halted => exact absurd rfl hlive

-- After an odd number of dropped releases the next token is the wrong one.
theorem Inv.derails (h : Inv s) {e : Event} (hbad : ¬EvenlyDropped s e) (hstep : step s e = some t) :
    ∃ labels u, system.run t labels = some u ∧ ¬InPhase u := by
  cases e with
  | release =>
      obtain ⟨hnone, hrest⟩ := Classical.not_imp.mp hbad
      obtain ⟨hlive, hodd⟩ := Classical.not_imp.mp hrest
      have hparity := h.parity hlive
      rw [hnone] at hparity
      have hne : s.next ≠ s.pc.wanted := fun heq => hodd (hparity.mp heq)
      have hrelease : step s .release = some { s with token := some s.next, next := s.next.opposite } := by
        simp only [Phase.step, Phase.release, hnone]
      obtain rfl := Option.some.inj (hstep.symm.trans hrelease)
      obtain ⟨labels, u, consumer, hrun, hconsumed, hwanted⟩ :=
        consumes (s := { s with token := some s.next, next := s.next.opposite }) hlive rfl
      refine ⟨labels, u, hrun, fun hphase => hne ?_⟩
      have hentry := hphase (consumer, s.next) (by rw [hconsumed]; exact List.mem_cons_self)
      exact hentry.trans hwanted
  | acquire | proceed _ => exact absurd trivial hbad

-- In a run that drops releases in pairs every token is consumed by the function
-- it was released for; the first release after an odd number of dropped ones can
-- be continued to a token that is not.
theorem tokens_in_phase (hs : system.ReachableBy EvenlyDropped s) :
    InPhase s ∧ ∀ e t, ¬EvenlyDropped s e → system.step s e = some t →
      ∃ labels u, system.run t labels = some u ∧ ¬InPhase u :=
  ⟨(inv_of_reachable hs).consumed, fun _ _ hbad hstep => (inv_of_reachable hs).derails hbad hstep⟩

-- The card is pulled and put back while the thread is still initialising it.
theorem dropped_insertion_shifts_phase : ¬∀ s, system.Reachable s → InPhase s := by
  intro h
  have hphase := h _ (.get system (fun _ _ => True) [.release, .acquire, .release, .release, .proceed true,
    .proceed true, .acquire, .proceed true, .release, .acquire] (.inl rfl) (by decide))
  have hentry := hphase (.init, .notPresent) List.mem_cons_self
  cases hentry

theorem tokens_in_phase_run :
    InPhase ⟨none, .present, .unmounting, [(.deInit, .notPresent), (.init, .present)], 0⟩ :=
  (tokens_in_phase (.get system EvenlyDropped [.acquire, .proceed true, .proceed true, .release, .acquire]
    (.inr rfl) (by decide))).1

end Phase

end SdCard

end Carbon
