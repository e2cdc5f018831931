import Carbon.Library.Transition

namespace Carbon

namespace Dhcp

inductive DhcpState
  | off
  | start
  | waitAddress
  | addressAssigned
  | timeout
  | linkDown
  deriving DecidableEq

-- Where DHCP_Thread stands: at its switch; before each of the writes of its
-- branches and before the call that follows it; before dhcp_supplied_address;
-- at its delay.
inductive Pc
  | switch
  | startWrite
  | startCall
  | supplied
  | assignedWrite
  | timeoutWrite
  | timeoutCall
  | downWrite
  | downCall
  | delay
  deriving DecidableEq

inductive Call
  | dhcpStart
  | dhcpReleaseAndStop
  deriving DecidableEq

-- The last four fields are for the proofs: a written event that the thread has
-- not read, whether a callback has run since the thread read the state, whether
-- the thread has overwritten an event it had not read, and its calls since the
-- last event.
structure State where
  dhcpState : DhcpState
  pc : Pc
  unread : Bool
  disturbed : Bool
  lost : Bool
  calls : List Call

-- The thread's label tells what dhcp_supplied_address returns and whether the
-- tries exceed MAX_DHCP_TRIES.
inductive Event
  | linkStatusUpdated (up : Bool)
  | thread (suppliedAddress triesExceeded : Bool)

-- ethernet_link_status_updated.
def linkStatusUpdated (s : State) (up : Bool) : State :=
  { s with
    dhcpState := if up then .start else .linkDown
    unread := true
    disturbed := true
    calls := [] }

def read (s : State) : State :=
  let s := { s with unread := false, disturbed := false }
  match s.dhcpState with
  | .start => { s with pc := .startWrite }
  | .waitAddress => { s with pc := .supplied }
  | .linkDown => { s with pc := .downWrite }
  | .off | .addressAssigned | .timeout => { s with pc := .delay }

def write (s : State) (value : DhcpState) (pc : Pc) : State :=
  { s with dhcpState := value, pc := pc, unread := false, lost := s.lost || s.unread }

def call (s : State) (callee : Call) : State :=
  { s with pc := .delay, calls := callee :: s.calls }

def threadStep (s : State) (suppliedAddress triesExceeded : Bool) : State :=
  match s.pc with
  | .switch => read s
  | .startWrite => write s .waitAddress .startCall
  | .startCall => call s .dhcpStart
  | .supplied =>
      if suppliedAddress then { s with pc := .assignedWrite }
      else if triesExceeded then { s with pc := .timeoutWrite }
      else { s with pc := .delay }
  | .assignedWrite => write s .addressAssigned .delay
  | .timeoutWrite => write s .timeout .timeoutCall
  | .timeoutCall => call s .dhcpReleaseAndStop
  | .downWrite => write s .off .downCall
  | .downCall => call s .dhcpReleaseAndStop
  | .delay => { s with pc := .switch }

def step (s : State) : Event → Option State
  | .linkStatusUpdated up => some (linkStatusUpdated s up)
  | .thread suppliedAddress triesExceeded => some (threadStep s suppliedAddress triesExceeded)

-- The thread's state variable before its first event.
def system : Transition.System State Event where
  initial s := s = ⟨.off, .switch, false, false, false, []⟩
  step := step

def Pc.writes : Pc → Bool
  | .startWrite | .assignedWrite | .timeoutWrite | .downWrite => true
  | .switch | .startCall | .supplied | .timeoutCall | .downCall | .delay => false

-- No callback runs between the thread's read of the state and its write.
def Undisturbed (s : State) : Event → Prop
  | .linkStatusUpdated _ => True
  | .thread _ _ => s.pc.writes = true → s.disturbed = false

instance (s : State) : DecidablePred (Undisturbed s)
  | .linkStatusUpdated _ => isTrue trivial
  | .thread _ _ => inferInstanceAs (Decidable (s.pc.writes = true → s.disturbed = false))

-- What the thread has to call after an event.
def callFor (up : Bool) : Call := if up then .dhcpStart else .dhcpReleaseAndStop

-- The state that stands for an event, and the thread's way from reading it to
-- the call.
def stateFor (up : Bool) : DhcpState := if up then .start else .linkDown
def writeFor (up : Bool) : Pc := if up then .startWrite else .downWrite
def callPcFor (up : Bool) : Pc := if up then .startCall else .downCall

structure Inv (s : State) : Prop where
  lost : s.lost = false
  unread : s.unread = s.disturbed

variable {s t : State} {up : Bool}

theorem Inv.read (h : Inv s) : Inv (Dhcp.read s) := by
  unfold Dhcp.read
  cases s.dhcpState <;> exact ⟨h.lost, rfl⟩

theorem Inv.write (h : Inv s) (hok : s.disturbed = false) (value : DhcpState) (pc : Pc) :
    Inv (Dhcp.write s value pc) := by
  refine ⟨?_, hok.symm⟩
  simp only [Dhcp.write, h.lost, h.unread, hok, Bool.or_self]

theorem Inv.thread (h : Inv s) {suppliedAddress triesExceeded : Bool}
    (hok : Undisturbed s (.thread suppliedAddress triesExceeded)) :
    Inv (threadStep s suppliedAddress triesExceeded) := by
  have hquiet : s.pc.writes = true → s.disturbed = false := hok
  unfold threadStep
  cases hpc : s.pc with
  | switch => exact h.read
  | startWrite | assignedWrite | timeoutWrite | downWrite => exact h.write (hquiet (by rw [hpc]; rfl)) _ _
  | startCall | timeoutCall | downCall | delay => exact ⟨h.lost, h.unread⟩
  | supplied => cases suppliedAddress <;> cases triesExceeded <;> exact ⟨h.lost, h.unread⟩

theorem inv_of_reachable (hs : system.ReachableBy Undisturbed s) : Inv s := by
  refine hs.invariant (P := Inv) ?_ fun s e t h hok hstep => ?_
  · rintro s rfl
    exact ⟨rfl, rfl⟩
  · cases e with
    | linkStatusUpdated up => cases hstep; exact ⟨h.lost, rfl⟩
    | thread suppliedAddress triesExceeded => cases hstep; exact h.thread hok

-- A write that does not meet the condition overwrites the unread event.
theorem Inv.loses (h : Inv s) {e : Event} (hbad : ¬Undisturbed s e) (hstep : step s e = some t) :
    t.lost = true := by
  cases e with
  | linkStatusUpdated up => exact absurd trivial hbad
  | thread suppliedAddress triesExceeded =>
      obtain ⟨hwrites, hdisturbed⟩ := Classical.not_imp.mp hbad
      have hunread : s.unread = true := by
        rw [h.unread]
        exact (Bool.not_eq_false _).mp hdisturbed
      have hlost : ∀ value pc, (Dhcp.write s value pc).lost = true := fun value pc => by
        simp only [Dhcp.write, hunread, Bool.or_true]
      cases hstep
      unfold threadStep
      cases hpc : s.pc with
      | startWrite | assignedWrite | timeoutWrite | downWrite => exact hlost _ _
      | switch | startCall | supplied | timeoutCall | downCall | delay =>
          rw [hpc] at hwrites
          cases hwrites

-- The call for the last event is made, or is n steps of the thread away. A
-- thread that would write over the event goes no further.
def Due (up : Bool) (s : State) : Nat → Prop
  | 0 => callFor up ∈ s.calls
  | 1 => s.pc = callPcFor up
  | 2 => s.pc = writeFor up
  | 3 => s.dhcpState = stateFor up ∧ s.pc = .switch
  | 4 => s.dhcpState = stateFor up ∧ (s.pc = .delay ∨ s.pc.writes = true ∧ s.disturbed = true)
  | _ => s.dhcpState = stateFor up ∧ s.disturbed = true

theorem due_after_callback (s : State) (up : Bool) : Due up (linkStatusUpdated s up) 5 :=
  ⟨by cases up <;> rfl, rfl⟩

theorem Due.made (h : Due up s 0) (suppliedAddress triesExceeded : Bool) :
    Due up (threadStep s suppliedAddress triesExceeded) 0 := by
  have hcall : callFor up ∈ s.calls := h
  unfold threadStep
  cases s.pc with
  | switch => unfold read; cases s.dhcpState <;> exact hcall
  | startCall | timeoutCall | downCall => exact List.mem_cons_of_mem _ hcall
  | startWrite | assignedWrite | timeoutWrite | downWrite | delay => exact hcall
  | supplied => cases suppliedAddress <;> cases triesExceeded <;> exact hcall

theorem Due.read (h : s.dhcpState = stateFor up) : Due up (Dhcp.read s) 2 := by
  unfold Dhcp.read
  rw [h]
  cases up <;> rfl

theorem Due.thread {n : Nat} (h : Due up s (n + 1)) {suppliedAddress triesExceeded : Bool}
    (hok : Undisturbed s (.thread suppliedAddress triesExceeded)) (hn : n < 5) :
    ∃ m ≤ n, Due up (threadStep s suppliedAddress triesExceeded) m := by
  have hquiet : s.pc.writes = true → s.disturbed = false := hok
  match n, h with
  | 0, h =>
      have hpc : s.pc = callPcFor up := h
      refine ⟨0, Nat.le_refl _, ?_⟩
      cases up <;> simp only [threadStep, hpc, callPcFor] <;> exact List.mem_cons_self
  | 1, h =>
      have hpc : s.pc = writeFor up := h
      refine ⟨1, Nat.le_refl _, ?_⟩
      cases up <;> simp only [threadStep, hpc, writeFor] <;> rfl
  | 2, ⟨hstate, hpc⟩ =>
      refine ⟨2, Nat.le_refl _, ?_⟩
      simp only [threadStep, hpc]
      exact Due.read hstate
  | 3, ⟨hstate, hpc⟩ =>
      refine ⟨3, Nat.le_refl _, ?_⟩
      rcases hpc with hpc | ⟨hwrites, hdisturbed⟩
      · simp only [threadStep, hpc]
        exact ⟨hstate, rfl⟩
      · exact absurd ((hquiet hwrites).symm.trans hdisturbed) (by decide)
  | 4, ⟨hstate, hdisturbed⟩ =>
      have hnot : ¬s.pc.writes = true := fun hwrites =>
        absurd ((hquiet hwrites).symm.trans hdisturbed) (by decide)
      unfold threadStep
      cases hpc : s.pc with
      | switch => exact ⟨2, by decide, Due.read hstate⟩
      | startCall | timeoutCall | downCall => exact ⟨4, Nat.le_refl _, hstate, .inl rfl⟩
      | supplied =>
          refine ⟨4, Nat.le_refl _, ?_⟩
          cases suppliedAddress with
          | true => exact ⟨hstate, .inr ⟨rfl, hdisturbed⟩⟩
          | false =>
              cases triesExceeded with
              | true => exact ⟨hstate, .inr ⟨rfl, hdisturbed⟩⟩
              | false => exact ⟨hstate, .inl rfl⟩
      | delay => exact ⟨3, by decide, hstate, rfl⟩
      | startWrite | assignedWrite | timeoutWrite | downWrite =>
          rw [hpc] at hnot
          exact absurd rfl hnot

-- Without further events the thread makes the call.
theorem Due.run {n : Nat} (h : Due up s n) (hn : n ≤ 5) {answers : List (Bool × Bool)}
    (hlen : n ≤ answers.length)
    (hrun : system.runBy Undisturbed s (answers.map fun answer => .thread answer.1 answer.2) = some t) :
    callFor up ∈ t.calls := by
  induction answers generalizing s n with
  | nil =>
      obtain rfl : n = 0 := Nat.le_zero.mp hlen
      cases hrun
      exact h
  | cons answer rest ih =>
      rw [List.map_cons] at hrun
      unfold Transition.System.runBy at hrun
      split at hrun
      · rename_i hok
        obtain ⟨u, hu, hrest⟩ := Option.bind_eq_some_iff.mp hrun
        cases hu
        cases n with
        | zero => exact ih (h.made _ _) (by decide) (Nat.zero_le _) hrest
        | succ n =>
            obtain ⟨m, hm, hdue⟩ := h.thread hok (by omega)
            rw [List.length_cons] at hlen
            exact ih hdue (by omega) (by omega) hrest
      · cases hrun

-- In an undisturbed run no event is lost, and after the last event five steps of
-- the thread make its call; the first disturbed write loses an event.
theorem no_event_lost (hs : system.ReachableBy Undisturbed s) :
    s.lost = false ∧
      (∀ up (answers : List (Bool × Bool)) t, 5 ≤ answers.length →
        system.runBy Undisturbed (linkStatusUpdated s up)
          (answers.map fun answer => .thread answer.1 answer.2) = some t → callFor up ∈ t.calls) ∧
      ∀ e t, ¬Undisturbed s e → system.step s e = some t → t.lost = true :=
  ⟨(inv_of_reachable hs).lost,
    fun up _ _ hlen hrun => (due_after_callback _ up).run (Nat.le_refl _) hlen hrun,
    fun _ _ hbad hstep => (inv_of_reachable hs).loses hbad hstep⟩

-- The link goes down between the thread's read of the link-up event and its
-- write.
theorem link_down_overwritten : ¬∀ s, system.Reachable s → s.lost = false := by
  intro h
  have hlost := h _ (.get system (fun _ _ => True) [.linkStatusUpdated true, .thread false false,
    .linkStatusUpdated false, .thread false false] rfl (by decide))
  cases hlost

theorem no_event_lost_run :
    ∃ s : State, s.dhcpState = .waitAddress ∧ s.calls = [.dhcpStart] ∧ s.lost = false :=
  have hreach := Transition.System.ReachableBy.get system Undisturbed
    [.linkStatusUpdated true, .thread false false, .thread false false, .thread false false] rfl (by decide)
  ⟨_, rfl, rfl, (no_event_lost hreach).1⟩

end Dhcp

end Carbon
