import Carbon.Library.Transition
import Carbon.Ethernet.MacConfig

namespace Carbon

namespace Link

open MacConfig

-- Results of LAN8742_GetLinkState; read errors are negative.
def linkDown : Int := 1
def full100 : Int := 2
def half100 : Int := 3
def full10 : Int := 4
def half10 : Int := 5
def autonegoNotDone : Int := 6

-- The bits of MACCR that start the MAC.
def maccrTe : BitVec 32 := 1#32 <<< 1
def maccrRe : BitVec 32 := 1#32 <<< 0

-- A link mode, as the two bits of MACCR and as the PHY resolves it.
structure Mode where
  fast : Bool
  full : Bool
  deriving DecidableEq

def modeOf (phyLinkState : Int) : Option Mode :=
  if phyLinkState = full100 then some ⟨true, true⟩
  else if phyLinkState = half100 then some ⟨true, false⟩
  else if phyLinkState = full10 then some ⟨false, true⟩
  else if phyLinkState = half10 then some ⟨false, false⟩
  else none

def programmed (maccr : BitVec 32) : Mode := ⟨maccr.getLsbD 14, maccr.getLsbD 13⟩

inductive GState
  | ready
  | busy
  | error
  deriving DecidableEq

-- One bring-up: the PHY state of its iteration and MACCR after it.
structure BringUp where
  phyLinkState : Int
  maccr : BitVec 32

-- The thread's locals, the interface's link flag, the registers of the MAC, and
-- the bring-ups so far.
structure State where
  linkchanged : Bool
  speed : BitVec 32
  duplex : BitVec 32
  linkUp : Bool
  registers : Registers
  gState : GState
  bringUps : List BringUp

def State.setMaccr (s : State) (maccr : BitVec 32) : State :=
  { s with registers := { s.registers with maccr := maccr } }

def ethernetStart (s : State) : State :=
  match s.gState with
  | .ready => { s.setMaccr (s.registers.maccr ||| maccrTe ||| maccrRe) with gState := .busy }
  | .busy | .error => s

def ethernetStop (s : State) : State :=
  { s.setMaccr (s.registers.maccr &&& ~~~maccrRe &&& ~~~maccrTe) with gState := .ready }

-- The switch over the resolved states.
def resolve (s : State) (phyLinkState : Int) : State :=
  if phyLinkState = full100 then
    { s with duplex := fullduplexMode, speed := speed100M, linkchanged := true }
  else if phyLinkState = half100 then
    { s with duplex := halfduplexMode, speed := speed100M, linkchanged := true }
  else if phyLinkState = full10 then
    { s with duplex := fullduplexMode, speed := speed10M, linkchanged := true }
  else if phyLinkState = half10 then
    { s with duplex := halfduplexMode, speed := speed10M, linkchanged := true }
  else s

def bringUp (s : State) (phyLinkState : Int) : State :=
  let s := ethernetStart { s with registers := reconfigure s.registers s.speed s.duplex }
  { s with linkUp := true, bringUps := ⟨phyLinkState, s.registers.maccr⟩ :: s.bringUps }

-- One iteration of carbon_lwip_link_thread after it has read the PHY.
def iterate (s : State) (phyLinkState : Int) : State :=
  if s.linkUp ∧ phyLinkState ≤ linkDown then ethernetStop { s with linkUp := false }
  else if s.linkUp = false ∧ linkDown < phyLinkState then
    let s := resolve s phyLinkState
    if s.linkchanged then bringUp s phyLinkState else s
  else s

-- Besides the thread, the interrupt handler may put the MAC into its error state.
inductive Event
  | iterate (phyLinkState : Int)
  | abnormalInterrupt

def step (s : State) : Event → Option State
  | .iterate phyLinkState => some (iterate s phyLinkState)
  | .abnormalInterrupt => some { s with gState := .error }

-- Whatever carbon_hw_ethernet_low_level_init left behind.
def system : Transition.System State Event where
  initial s := s.linkchanged = false ∧ s.speed = 0 ∧ s.duplex = 0 ∧ s.bringUps = []
  step := step

-- Every bring-up happened on a resolved state, with its mode programmed.
def Negotiated (s : State) : Prop :=
  ∀ bringUp ∈ s.bringUps, modeOf bringUp.phyLinkState = some (programmed bringUp.maccr)

-- An unresolved state above link down is read only while the link is up or
-- before the first resolved one.
def ResolvedFirst (s : State) : Event → Prop
  | .iterate phyLinkState => s.linkUp = false → linkDown < phyLinkState →
      modeOf phyLinkState = none → s.linkchanged = false
  | .abnormalInterrupt => True

instance (s : State) : DecidablePred (ResolvedFirst s)
  | .iterate phyLinkState => inferInstanceAs (Decidable (s.linkUp = false → linkDown < phyLinkState →
      modeOf phyLinkState = none → s.linkchanged = false))
  | .abnormalInterrupt => isTrue trivial

variable {s t : State}

theorem programmed_reconfigure (regs : Registers) (speed duplex : BitVec 32) :
    programmed (reconfigure regs speed duplex).maccr =
      ⟨speed.getLsbD 14 || duplex.getLsbD 14, speed.getLsbD 13 || duplex.getLsbD 13⟩ := by
  unfold programmed
  rw [getLsbD_reconfigure _ _ _ (.inr rfl), getLsbD_reconfigure _ _ _ (.inl rfl)]

-- The switch sets the locals on a resolved state and only there.
theorem resolve_some {phyLinkState : Int} {mode : Mode} (h : modeOf phyLinkState = some mode) :
    (resolve s phyLinkState).linkchanged = true ∧
      ((resolve s phyLinkState).speed.getLsbD 14 || (resolve s phyLinkState).duplex.getLsbD 14) = mode.fast ∧
      ((resolve s phyLinkState).speed.getLsbD 13 || (resolve s phyLinkState).duplex.getLsbD 13) = mode.full := by
  unfold modeOf at h
  unfold resolve
  split_ifs at h ⊢ <;> cases h <;> exact ⟨rfl, by dsimp only; decide, by dsimp only; decide⟩

theorem resolve_none {phyLinkState : Int} (h : modeOf phyLinkState = none) :
    resolve s phyLinkState = s := by
  unfold modeOf at h
  unfold resolve
  split_ifs at h ⊢
  rfl

theorem programmed_start (s : State) :
    programmed (ethernetStart s).registers.maccr = programmed s.registers.maccr := by
  have hbits : (maccrTe.getLsbD 14 = false ∧ maccrRe.getLsbD 14 = false) ∧
      maccrTe.getLsbD 13 = false ∧ maccrRe.getLsbD 13 = false := by decide
  unfold ethernetStart
  cases s.gState with
  | ready => simp only [State.setMaccr, programmed, BitVec.getLsbD_or, hbits, Bool.or_false]
  | busy | error => rfl

theorem bringUp_bringUps (s : State) (phyLinkState : Int) :
    ∃ maccr, (bringUp s phyLinkState).bringUps = ⟨phyLinkState, maccr⟩ :: s.bringUps ∧
      programmed maccr =
        ⟨s.speed.getLsbD 14 || s.duplex.getLsbD 14, s.speed.getLsbD 13 || s.duplex.getLsbD 13⟩ := by
  have hstart : ∀ t : State, (ethernetStart t).bringUps = t.bringUps := by
    intro t
    unfold ethernetStart
    cases t.gState <;> rfl
  let started := ethernetStart { s with registers := reconfigure s.registers s.speed s.duplex }
  refine ⟨started.registers.maccr, ?_, ?_⟩
  · unfold bringUp
    dsimp only
    rw [hstart]
  · rw [programmed_start]
    exact programmed_reconfigure _ _ _

-- The iterations that bring the interface up are those with the link down and
-- a state above link down, once the flag is set.
theorem iterate_cases (s : State) (phyLinkState : Int) :
    (iterate s phyLinkState).bringUps = s.bringUps ∨
      s.linkUp = false ∧ linkDown < phyLinkState ∧
        (resolve s phyLinkState).linkchanged = true ∧
        iterate s phyLinkState = bringUp (resolve s phyLinkState) phyLinkState := by
  have hresolve : (resolve s phyLinkState).bringUps = s.bringUps := by
    unfold resolve
    split_ifs <;> rfl
  unfold iterate
  split
  · exact .inl rfl
  · split
    · rename_i hdown
      dsimp only
      split
      · exact .inr ⟨hdown.1, hdown.2, ‹_›, rfl⟩
      · exact .inl hresolve
    · exact .inl rfl

theorem Negotiated.step (h : Negotiated s) {e : Event} (hok : ResolvedFirst s e)
    (hstep : Link.step s e = some t) : Negotiated t := by
  cases e with
  | abnormalInterrupt => cases hstep; exact h
  | iterate phyLinkState =>
      cases hstep
      rcases iterate_cases s phyLinkState with hsame | ⟨hdown, habove, hchanged, hup⟩
      · unfold Negotiated
        rw [hsame]
        exact h
      · have hold : (resolve s phyLinkState).bringUps = s.bringUps := by
          unfold resolve
          split_ifs <;> rfl
        obtain ⟨maccr, hbringUps, hmaccr⟩ := bringUp_bringUps (resolve s phyLinkState) phyLinkState
        unfold Negotiated
        rw [hup, hbringUps, hold]
        intro entry hentry
        rcases List.mem_cons.mp hentry with rfl | hentry
        · cases hmode : modeOf phyLinkState with
          | none =>
              have hflag := hok hdown habove hmode
              rw [resolve_none hmode, hflag] at hchanged
              cases hchanged
          | some mode =>
              obtain ⟨_, hfast, hfull⟩ := resolve_some (s := s) hmode
              dsimp only
              rw [hmaccr, hfast, hfull]
        · exact h entry hentry

-- An unresolved state brings the interface up once the flag is set.
theorem not_negotiated {e : Event} (hbad : ¬ResolvedFirst s e) (hstep : step s e = some t) :
    ¬Negotiated t := by
  cases e with
  | abnormalInterrupt => exact absurd trivial hbad
  | iterate phyLinkState =>
      obtain ⟨hdown, hrest⟩ := Classical.not_imp.mp hbad
      obtain ⟨habove, hrest⟩ := Classical.not_imp.mp hrest
      obtain ⟨hmode, hflag⟩ := Classical.not_imp.mp hrest
      cases hstep
      have hup : iterate s phyLinkState = bringUp s phyLinkState := by
        unfold iterate
        rw [if_neg (by rw [hdown]; simp), if_pos ⟨hdown, habove⟩, resolve_none hmode,
          if_pos ((Bool.not_eq_false _).mp hflag)]
      obtain ⟨maccr, hbringUps, _⟩ := bringUp_bringUps s phyLinkState
      intro h
      have hentry := h ⟨phyLinkState, maccr⟩ (by rw [hup, hbringUps]; exact List.mem_cons_self)
      rw [hmode] at hentry
      cases hentry

-- In a run that reads unresolved states only before the first resolved one or
-- with the link up, every bring-up uses the mode of its own iteration; the first
-- other iteration brings the interface up on an unresolved state.
theorem bring_up_negotiated (hs : system.ReachableBy ResolvedFirst s) :
    Negotiated s ∧ ∀ e t, ¬ResolvedFirst s e → system.step s e = some t → ¬Negotiated t := by
  refine ⟨hs.invariant (P := Negotiated) ?_ fun s e t h hok hstep => h.step hok hstep,
    fun e t hbad hstep => not_negotiated hbad hstep⟩
  rintro s ⟨_, _, _, hnone⟩ entry hentry
  rw [hnone] at hentry
  cases hentry

-- Up at 100 Mbit/s, down, and up again while the next negotiation is pending.
def booted : State := ⟨false, 0, 0, false, ⟨0, 0, 0, 0, 0, 0, 0⟩, .ready, []⟩

theorem pending_negotiation_brings_up : ¬∀ s, system.Reachable s → Negotiated s := by
  intro h
  have hup := h _ (.get system (fun _ _ => True) [.iterate full100, .iterate linkDown, .iterate autonegoNotDone]
    (s := booted) ⟨rfl, rfl, rfl, rfl⟩ (by decide))
  revert hup
  unfold Negotiated
  decide

-- The link comes up at 100 Mbit/s once the negotiation is done, is lost, and comes
-- up at 10 Mbit/s.
def negotiations : List Event :=
  [.iterate autonegoNotDone, .iterate full100, .iterate autonegoNotDone, .iterate (-5), .iterate half10]

theorem negotiations_runs : (system.runBy ResolvedFirst booted negotiations).isSome := by decide

theorem bring_up_negotiated_run :
    ∃ s, system.runBy ResolvedFirst booted negotiations = some s ∧
      s.bringUps.map BringUp.phyLinkState = [half10, full100] ∧ Negotiated s :=
  have hstart : system.ReachableBy ResolvedFirst booted := .start ⟨rfl, rfl, rfl, rfl⟩
  ⟨_, (Option.some_get negotiations_runs).symm, rfl,
    (bring_up_negotiated (hstart.after negotiations negotiations_runs)).1⟩

end Link

end Carbon
