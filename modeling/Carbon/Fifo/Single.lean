import Carbon.Fifo.Preserved

namespace Carbon

namespace Fifo

open Reservation

variable {α : Type} {g : Geometry}

-- The parts of push and pop.
def Single : Event α → Prop
  | .pushReserve _ _ | .pushInsert _ | .pushCommit _ | .popLook | .popRemove _ | .popAdvance => True
  | .openPush _ _ | .contextPush _ _ | .contextArray _ _ | .arrayEnter _ _ | .arrayRound _ _
  | .closePush _ | .openPull | .pullRead | .closePull => False

instance : DecidablePred (Single (α := α))
  | .pushReserve _ _ | .pushInsert _ | .pushCommit _ | .popLook | .popRemove _ | .popAdvance =>
      isTrue trivial
  | .openPush _ _ | .contextPush _ _ | .contextArray _ _ | .arrayEnter _ _ | .arrayRound _ _
  | .closePush _ | .openPull | .pullRead | .closePull => isFalse id

theorem Single.safe {s : State α} {e : Event α} (he : Single e) : Safe g s e := by
  cases e <;> first | exact ⟨trivial, trivial⟩ | exact he.elim

-- The slot a push writes, and the slot a pop reads.
def Producer.slot : Producer α → Option Nat
  | .pushing _ fifoPos _ | .pushed fifoPos _ => some fifoPos
  | .idle | .context _ _ _ | .filling _ _ _ _ _ => none

def Consumer.slot : Consumer α → Option Nat
  | .looked currentHead | .removed currentHead _ => some currentHead
  | .idle | .pulling _ _ => none

-- What a step adds to the accepted values and to the popped ones.
def accepts (g : Geometry) (s : State α) : Event α → List (Option α)
  | .pushReserve _ object => if s.fifo.isFull g then [] else [some object]
  | _ => []

def popped (s : State α) : Event α → List α
  | .popAdvance =>
      match s.consumer with
      | .removed _ object => [object]
      | _ => []
  | _ => []

theorem accepted_congr {l m : Log α} (hres : m.reserved = l.reserved)
    (hsame : ∀ i < l.reserved, m.object i = l.object i) : m.accepted = l.accepted := by
  unfold Log.accepted
  rw [hres]
  exact List.map_congr_left fun i hi => hsame i (List.mem_range.mp hi)

theorem accepted_promise (l : Log α) (object : α) :
    (l.promise object).accepted = l.accepted ++ [some object] := by
  unfold Log.accepted Log.promise
  rw [List.range_succ, List.map_append]
  congr 1
  · exact List.map_congr_left fun i hi =>
      Function.update_of_ne (Nat.ne_of_lt (List.mem_range.mp hi)) _ _
  · simp

-- One part of a push or a pop extends the two sequences by what it accepts and
-- by what it pops.
theorem Inv.single_history {s t : State α} (h : Inv g s) {e : Event α} (he : Single e)
    (hstep : Fifo.step g s e = some t) :
    t.log.accepted = s.log.accepted ++ accepts g s e ∧
      t.log.delivered = s.log.delivered ++ popped s e := by
  cases e with
  | pushReserve p object =>
      obtain ⟨_, ⟨hfull, rfl⟩ | ⟨hfull, rfl⟩⟩ := pushReserveStep_cases hstep
      · simp [accepts, popped, hfull]
      · refine ⟨?_, by simp [popped, Log.promise]⟩
        simp only [accepts, hfull, Bool.false_eq_true, ite_false]
        exact accepted_promise s.log object
  | pushInsert p =>
      obtain ⟨_, _, _, _, rfl⟩ := pushInsertStep_cases hstep
      simp [accepts, popped, State.setProducer]
  | pushCommit p =>
      obtain ⟨fifoPos, entry, hp, rfl⟩ := pushCommitStep_cases hstep
      have hlocal := h.producer p
      rw [hp] at hlocal
      obtain ⟨_, hobject⟩ := hlocal
      refine ⟨?_, by simp [popped, Log.commit]⟩
      simp only [accepts, List.append_nil]
      refine accepted_congr (l := s.log) rfl fun i _ => ?_
      by_cases hi : entry ≤ i ∧ i < entry + 1
      · obtain rfl : i = entry := by omega
        rw [(Log.commit_inside s.log _ hi).1, hobject]
      · exact (Log.commit_outside s.log _ hi).1
  | popLook =>
      obtain ⟨_, ⟨_, rfl⟩ | ⟨_, rfl⟩⟩ := popLookStep_cases hstep <;> simp [accepts, popped]
  | popRemove object =>
      obtain ⟨_, _, _, _, rfl⟩ := popRemoveStep_cases hstep
      simp [accepts, popped]
  | popAdvance =>
      obtain ⟨currentHead, object, hc, rfl⟩ := popAdvanceStep_cases hstep
      simp [accepts, popped, hc, Log.deliver, Log.accepted]
  | _ => exact he.elim

-- Every slot that is reserved and not ready yet is under a push.
def Underway (s : State α) : Prop :=
  ∀ i < s.log.reserved, s.log.committed i = false → ∃ p, (s.producer p).Holds i

theorem holds_update {producer : Nat → Producer α} {p i : Nat} {x : Producer α}
    (hheld : ∃ q, (producer q).Holds i) (hx : (producer p).Holds i → x.Holds i) :
    ∃ q, (Function.update producer p x q).Holds i := by
  obtain ⟨q, hq⟩ := hheld
  by_cases hqp : q = p
  · subst hqp
    exact ⟨q, by rw [Function.update_self]; exact hx hq⟩
  · exact ⟨q, by rwa [Function.update_of_ne hqp]⟩

theorem Underway.step {s t : State α} (h : Underway s) {e : Event α} (he : Single e)
    (hstep : Fifo.step g s e = some t) : Underway t := by
  cases e with
  | pushReserve p object =>
      obtain ⟨hidle, ⟨_, rfl⟩ | ⟨_, rfl⟩⟩ := pushReserveStep_cases hstep
      · exact h
      · intro i hi hc
        by_cases hnew : i = s.log.reserved
        · exact ⟨p, by simpa [State.setProducer, Producer.Holds] using hnew⟩
        · have hlt : i < s.log.reserved := by
            have hle : i < s.log.reserved + 1 := hi
            omega
          exact holds_update (h i hlt hc) fun hp => by rw [hidle] at hp; exact hp.elim
  | pushInsert p =>
      obtain ⟨object, fifoPos, entry, hp, rfl⟩ := pushInsertStep_cases hstep
      exact fun i hi hc => holds_update (h i hi hc) fun hheld => by rw [hp] at hheld; exact hheld
  | pushCommit p =>
      obtain ⟨fifoPos, entry, hp, rfl⟩ := pushCommitStep_cases hstep
      intro i hi hc
      by_cases hentry : entry ≤ i ∧ i < entry + 1
      · have hset := (Log.commit_inside s.log (fun _ => s.fifo.buffer fifoPos) hentry).2
        rw [show (s.log.commit entry 1 fun _ => s.fifo.buffer fifoPos).committed i = false from hc] at hset
        cases hset
      · rw [show (s.log.commit entry 1 fun _ => s.fifo.buffer fifoPos).committed i = s.log.committed i
          from (Log.commit_outside s.log _ hentry).2] at hc
        refine holds_update (h i hi hc) fun hheld => ?_
        rw [hp] at hheld
        have hsame : i = entry := hheld
        omega
  | popLook => obtain ⟨_, ⟨_, rfl⟩ | ⟨_, rfl⟩⟩ := popLookStep_cases hstep <;> exact h
  | popRemove object => obtain ⟨_, _, _, _, rfl⟩ := popRemoveStep_cases hstep; exact h
  | popAdvance => obtain ⟨_, _, _, rfl⟩ := popAdvanceStep_cases hstep; exact h
  | _ => exact he.elim

theorem underway_of_reachable {s : State α} (hs : (system g).ReachableBy (fun _ e => Single e) s) :
    Underway s :=
  hs.invariant (by rintro s ⟨buffer, rfl⟩; intro i hi; exact absurd hi (Nat.not_lt_zero i))
    (fun _ _ _ h he hstep => h.step he hstep)

-- A pop finds a value when the oldest entry that is not popped is committed.
theorem Inv.head_ready_iff {s : State α} (h : Inv g s) :
    s.fifo.isReady s.fifo.head = true ↔ s.log.committed s.log.delivered.length = true := by
  rw [h.head]
  constructor
  · intro hready
    by_cases hlt : s.log.delivered.length < s.log.reserved
    · exact (h.ready_mod (Nat.le_refl _) hlt).mp hready
    · rw [h.not_ready_of_tail _ (by omega) (by unfold Geometry.bufferSize; omega)] at hready
      cases hready
  · exact fun hc => (h.ready_mod (Nat.le_refl _) (h.sound.committed_lt hc)).mpr hc

theorem Inv.popLook_some_iff {s : State α} (h : Inv g s) :
    s.fifo.popLook = some s.fifo.head ↔
      s.log.delivered.length < s.log.reserved ∧ s.log.committed s.log.delivered.length = true := by
  have hready := h.head_ready_iff
  unfold popLook
  constructor
  · intro hlook
    have hc := hready.mp (by by_contra hne; rw [if_neg hne] at hlook; cases hlook)
    exact ⟨h.sound.committed_lt hc, hc⟩
  · exact fun hc => if_pos (hready.mpr hc.2)

-- Otherwise there is no such entry, or its push is still under way.
theorem Inv.popLook_none_iff {s : State α} (h : Inv g s) (hunder : Underway s) :
    s.fifo.popLook = none ↔ s.log.delivered.length = s.log.reserved ∨
      ∃ p, (s.producer p).Holds s.log.delivered.length := by
  have hready := h.head_ready_iff
  have hle := h.sound.delivered_le
  constructor
  · intro hlook
    have hc : s.log.committed s.log.delivered.length = false := by
      rw [← Bool.not_eq_true, ← hready]
      intro hr
      simp [popLook, hr] at hlook
    by_cases hlt : s.log.delivered.length < s.log.reserved
    · exact .inr (hunder _ hlt hc)
    · exact .inl (by omega)
  · intro hwhy
    have hc : s.log.committed s.log.delivered.length = false := by
      rcases hwhy with heq | ⟨p, hp⟩
      · exact (h.sound.open_end _ (by omega)).2
      · exact (h.held p _ hp).2
    have hr : s.fifo.isReady s.fifo.head = false := by
      rw [← Bool.not_eq_true, hready, hc]
      decide
    simp [popLook, hr]

-- Having found one, it takes that value.
theorem Inv.popRemove_due {s : State α} (h : Inv g s) (hpacked : g.packed = true) {currentHead : Nat}
    (hc : s.consumer = .looked currentHead) (object : α) :
    ∃ value, s.log.object s.log.delivered.length = some value ∧
      Fifo.step g s (.popRemove object) = some { s with consumer := .removed currentHead value } := by
  have hlocal := h.consumer
  rw [hc] at hlocal
  obtain ⟨rfl, hcommitted⟩ := hlocal
  have hlt : s.log.delivered.length % g.bufferSize < g.bufferSize := Nat.mod_lt _ (Nat.succ_pos _)
  have hfits : g.fits (s.log.delivered.length % g.bufferSize) 1 = true :=
    g.fits_of_le (Nat.le_of_lt_succ hlt) hlt
  refine ⟨_, h.content _ (Nat.le_refl _) hcommitted, ?_⟩
  simp [Fifo.step, popRemoveStep, hc, popRemove, hpacked, hfits]

theorem Inv.slot_holds {s : State α} (h : Inv g s) {p slot : Nat}
    (hp : (s.producer p).slot = some slot) :
    ∃ entry, (s.producer p).Holds entry ∧ slot = entry % g.bufferSize := by
  have hlocal := h.producer p
  cases hx : s.producer p with
  | pushing object fifoPos entry =>
      rw [hx] at hp hlocal
      obtain rfl := Option.some.inj hp
      exact ⟨entry, rfl, hlocal.1⟩
  | pushed fifoPos entry =>
      rw [hx] at hp hlocal
      obtain rfl := Option.some.inj hp
      exact ⟨entry, rfl, hlocal.1⟩
  | _ => rw [hx] at hp; cases hp

theorem Inv.consumer_slot {s : State α} (h : Inv g s) {slot : Nat}
    (hc : s.consumer.slot = some slot) :
    slot = s.log.delivered.length % g.bufferSize ∧
      s.log.committed s.log.delivered.length = true := by
  have hlocal := h.consumer
  cases hx : s.consumer with
  | looked currentHead =>
      rw [hx] at hc hlocal
      obtain rfl := Option.some.inj hc
      exact hlocal
  | removed currentHead object =>
      rw [hx] at hc hlocal
      obtain rfl := Option.some.inj hc
      exact ⟨hlocal.1, hlocal.2.1⟩
  | _ => rw [hx] at hc; cases hc

-- A slot under a push is not ready, not the consumer's and nobody else's.
theorem Inv.slot_private {s : State α} (h : Inv g s) {p slot : Nat}
    (hp : (s.producer p).slot = some slot) :
    s.fifo.isReady slot = false ∧ s.consumer.slot ≠ some slot ∧
      ∀ q, (s.producer q).slot = some slot → q = p := by
  obtain ⟨entry, hheld, rfl⟩ := h.slot_holds hp
  obtain ⟨hlt, hc⟩ := h.held p entry hheld
  have hge := h.held_ge hheld
  have hready : s.fifo.isReady (entry % g.bufferSize) = false := by
    rw [← Bool.not_eq_true, h.ready_mod hge hlt, hc]
    decide
  refine ⟨hready, ?_, ?_⟩
  · intro hslot
    obtain ⟨heq, hcommitted⟩ := h.consumer_slot hslot
    rw [heq, (h.ready_mod (Nat.le_refl _) (h.sound.committed_lt hcommitted)).mpr hcommitted] at hready
    cases hready
  · intro q hq
    obtain ⟨entry', hheld', heq⟩ := h.slot_holds hq
    have hsame : entry = entry' :=
      h.slot_inj hge hlt (h.held_ge hheld') (h.held q entry' hheld').1 heq
    exact h.disjoint q p entry' hheld' (hsame ▸ hheld)

-- A slot under a pop is ready and holds the value that is due.
theorem Inv.consumer_slot_due {s : State α} (h : Inv g s) {slot : Nat}
    (hc : s.consumer.slot = some slot) :
    s.fifo.isReady slot = true ∧
      s.log.object s.log.delivered.length = some (s.fifo.buffer slot) := by
  obtain ⟨rfl, hcommitted⟩ := h.consumer_slot hc
  exact ⟨(h.ready_mod (Nat.le_refl _) (h.sound.committed_lt hcommitted)).mpr hcommitted,
    h.content _ (Nat.le_refl _) hcommitted⟩

theorem Inv.tail_le {s : State α} (h : Inv g s) : s.fifo.tailReserved ≤ g.nElements := by
  rw [h.tail]
  exact Nat.le_of_lt_succ (Nat.mod_lt _ (Nat.succ_pos _))

theorem Inv.ready_between {s : State α} (h : Inv g s) {slot : Nat}
    (hready : s.fifo.isReady slot = true) :
    Cyclic.Between g.nElements s.fifo.head s.fifo.tailReserved slot := by
  obtain ⟨i, hi, hc, rfl⟩ := (h.ready slot).mp hready
  rw [h.head, h.tail]
  exact (Cyclic.between_mod_iff h.sound.delivered_le h.sound.bounded _).mpr
    ⟨i, hi, h.sound.committed_lt hc, rfl⟩

theorem Inv.refused_iff {s : State α} (h : Inv g s) :
    (s.fifo.pushReserve g).1 = none ↔ s.log.inUse = g.nElements := by
  have hfull := isFull_iff g s.fifo h.sound.delivered_le h.sound.bounded h.head h.tail
  unfold Log.inUse
  rw [← hfull]
  unfold pushReserve
  cases s.fifo.isFull g <;> simp

-- What push and pop are together, seen at one moment of a run: a FIFO bounded by
-- N. A push takes effect when it reserves its slot, a pop when it releases one.
structure PushPop (g : Geometry) (s : State α) : Prop where
  inOrder : s.log.delivered.map some <+: s.log.accepted
  history : ∀ e t, Single e → (system g).step s e = some t →
    t.log.accepted = s.log.accepted ++ accepts g s e ∧
      t.log.delivered = s.log.delivered ++ popped s e
  refused : (s.fifo.pushReserve g).1 = none ↔ s.log.inUse = g.nElements
  answers : s.fifo.popLook = some s.fifo.head ↔
    s.log.delivered.length < s.log.reserved ∧ s.log.committed s.log.delivered.length = true
  empty : s.fifo.popLook = none ↔ s.log.delivered.length = s.log.reserved ∨
    ∃ p, (s.producer p).Holds s.log.delivered.length
  takes : ∀ currentHead object, s.consumer = .looked currentHead →
    ∃ value, s.log.object s.log.delivered.length = some value ∧
      (system g).step s (.popRemove object) = some { s with consumer := .removed currentHead value }
  indices : s.fifo.head ≤ g.nElements ∧ s.fifo.tailReserved ≤ g.nElements
  ready : ∀ slot, s.fifo.isReady slot = true →
    Cyclic.Between g.nElements s.fifo.head s.fifo.tailReserved slot
  pushed : ∀ p slot, (s.producer p).slot = some slot →
    s.fifo.isReady slot = false ∧ s.consumer.slot ≠ some slot ∧
      ∀ q, (s.producer q).slot = some slot → q = p
  due : ∀ slot, s.consumer.slot = some slot →
    s.fifo.isReady slot = true ∧
      s.log.object s.log.delivered.length = some (s.fifo.buffer slot)

-- push and pop of a packed type, in any interleaving of their parts.
theorem push_pop_linearizable {s : State α} (hpacked : g.packed = true)
    (hs : (system g).ReachableBy (fun _ e => Single e) s) : PushPop g s := by
  have h : Inv g s := inv_of_reachable (hs.mono fun _ _ he => he.safe)
  exact {
    inOrder := h.sound.delivered_initial
    history := fun _ _ he hstep => h.single_history he hstep
    refused := h.refused_iff
    answers := h.popLook_some_iff
    empty := h.popLook_none_iff (underway_of_reachable hs)
    takes := fun _ object hc => h.popRemove_due hpacked hc object
    indices := ⟨h.head_le, h.tail_le⟩
    ready := fun _ => h.ready_between
    pushed := fun _ _ => h.slot_private
    due := fun _ => h.consumer_slot_due }

-- The second push returns while the first one is under way. In a queue that is
-- linearizable with respect to its answers too, a pop that begins now finds a
-- value.
def secondReturned : List (Event Nat) :=
  [.pushReserve 0 7, .pushReserve 1 8, .pushInsert 1, .pushCommit 1]

theorem secondReturned_runs : ((system (Geometry.ofBytes 2 0 (by decide))).runBy
    (fun _ e => Single e) (start fun _ => 0) secondReturned).isSome := by decide

theorem pop_misses_returned_push :
    ¬∀ (g : Geometry) (s : State Nat) (i : Nat), g.packed = true →
      (system g).ReachableBy (fun _ e => Single e) s → s.log.delivered.length ≤ i →
      s.log.committed i = true → s.fifo.popLook ≠ none := by
  intro h
  have hstart : (system (Geometry.ofBytes 2 0 (by decide))).ReachableBy
      (fun _ (e : Event Nat) => Single e) (start fun _ => 0) := .start ⟨_, rfl⟩
  exact h _ _ 1 rfl (hstart.after secondReturned secondReturned_runs) (by decide) (by decide) (by decide)

-- Once the first one has returned too, both are popped in the order of their
-- reservations.
def bothPopped : List (Event Nat) :=
  secondReturned ++ [.popLook, .pushInsert 0, .pushCommit 0, .popLook, .popRemove 0, .popAdvance,
    .popLook, .popRemove 0, .popAdvance]

theorem bothPopped_runs : ((system (Geometry.ofBytes 2 0 (by decide))).runBy
    (fun _ e => Single e) (start fun _ => 0) bothPopped).isSome := by decide +kernel

theorem push_pop_linearizable_run :
    ∃ s, (system (Geometry.ofBytes 2 0 (by decide))).runBy (fun _ e => Single e) (start fun _ => 0)
        bothPopped = some s ∧
      s.log.accepted = [some 7, some 8] ∧ s.log.delivered = [7, 8] ∧
      PushPop (Geometry.ofBytes 2 0 (by decide)) s := by
  have hstart : (system (Geometry.ofBytes 2 0 (by decide))).ReachableBy
      (fun _ (e : Event Nat) => Single e) (start fun _ => 0) := .start ⟨_, rfl⟩
  exact ⟨_, (Option.some_get bothPopped_runs).symm, by decide +kernel, by decide +kernel,
    push_pop_linearizable rfl (hstart.after bothPopped bothPopped_runs)⟩

end Fifo

end Carbon
