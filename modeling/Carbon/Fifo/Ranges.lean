import Carbon.Fifo.Preserved

namespace Carbon

namespace Fifo

open Reservation

variable {α : Type} {g : Geometry} {s t : State α}

-- The slots a producer has reserved and not committed yet, and the producer
-- whose part an event is.
def Producer.Reserves (g : Geometry) : Producer α → Nat → Prop
  | .pushing _ fifoPos _, slot | .pushed fifoPos _, slot => slot = fifoPos
  | .context c _ _, slot | .filling c _ _ _ _, slot => c.isOverflow = false ∧ c.Owns g slot
  | .idle, _ => False

def Event.caller : Event α → Option Nat
  | .pushReserve p _ | .pushInsert p | .pushCommit p | .openPush p _ | .contextPush p _
  | .contextArray p _ | .arrayEnter p _ | .arrayRound p _ | .closePush p => some p
  | .popLook | .popRemove _ | .popAdvance | .openPull | .pullRead | .closePull => none

theorem Inv.reserves_held (h : Inv g s) {p slot : Nat} (hres : (s.producer p).Reserves g slot) :
    ∃ i, (s.producer p).Holds i ∧ slot = i % g.bufferSize := by
  have hlocal := h.producer p
  cases hp : s.producer p with
  | idle => rw [hp] at hres; exact hres.elim
  | pushing object fifoPos entry =>
      rw [hp] at hres hlocal
      exact ⟨entry, rfl, hres.trans hlocal.1⟩
  | pushed fifoPos entry =>
      rw [hp] at hres hlocal
      exact ⟨entry, rfl, hres.trans hlocal.1⟩
  | context c entry advanced =>
      rw [hp] at hres hlocal
      exact Covers.owns hlocal hres.1 hres.2
  | filling c entry advanced i length =>
      rw [hp] at hres hlocal
      exact Covers.owns hlocal hres.1 hres.2

-- A reserved slot is in use, not ready, and reserved by one producer only.
theorem Inv.reserved_apart (h : Inv g s) {p slot : Nat} (hres : (s.producer p).Reserves g slot) :
    (∀ q, q ≠ p → ¬(s.producer q).Reserves g slot) ∧ s.fifo.isReady slot = false ∧
      Cyclic.Between g.nElements s.fifo.head s.fifo.tailReserved slot := by
  obtain ⟨i, hheld, rfl⟩ := h.reserves_held hres
  obtain ⟨hlt, hc⟩ := h.held p i hheld
  have hge := h.held_ge hheld
  refine ⟨fun q hq hother => ?_, ?_, ?_⟩
  · obtain ⟨j, hheld', heq⟩ := h.reserves_held hother
    have hij : i = j := h.slot_inj hge hlt (h.held_ge hheld') (h.held q j hheld').1 heq
    exact hq (h.disjoint q p i (hij ▸ hheld') hheld)
  · rw [← Bool.not_eq_true, h.ready_mod hge hlt, hc]
    decide
  · rw [h.head, h.tail]
    exact (Cyclic.between_mod_iff h.sound.delivered_le h.sound.bounded _).mpr ⟨i, hge, hlt, rfl⟩

-- What a part of a context writes is reserved by its caller.
theorem Tracked.writes_reserved {e : Event α} (h : Tracked g s) {c : ContextPush} {advanced : Nat}
    {inserts : List (Insert α)} (hw : contextWrites g s e = some (c, advanced, inserts))
    (hne : inserts ≠ []) : ∃ p, e.caller = some p ∧
      ∀ slot, c.Owns g slot → (s.producer p).Reserves g slot := by
  unfold contextWrites at hw
  split at hw
  · rename_i p object
    split at hw
    · rename_i hp
      cases hw
      refine ⟨p, rfl, fun slot hown => ?_⟩
      rw [hp]
      refine ⟨?_, hown⟩
      by_contra hover
      rw [Bool.not_eq_false] at hover
      simp [ContextPush.push, hover] at hne
    · cases hw
  · rename_i p objects
    split at hw
    · rename_i hp
      cases hw
      refine ⟨p, rfl, fun slot hown => ?_⟩
      rw [hp]
      refine ⟨?_, hown⟩
      by_contra hover
      rw [ContextPush.pushArray_refused objects (.inl (by simpa using hover))] at hne
      exact hne rfl
    · cases hw
  · rename_i p object
    split at hw
    · rename_i hp
      split at hw
      · cases hw
        refine ⟨p, rfl, fun slot hown => ?_⟩
        rw [hp]
        exact ⟨(h.of_filling hp).1, hown⟩
      · cases hw
    · cases hw
  · cases hw

-- In a run whose contexts are opened for 1 to N slots, or refused, and whose
-- calls keep to what is left of their ranges, every write made through a context
-- lies in what is left of the range of that context, and every slot outside it
-- keeps its content. If the closes and the batches of the run are exact too, it
-- touches no slot of another producer, no committed slot and no free one.
theorem context_writes_within_range {e : Event α}
    (hs : (system g).ReachableBy (Within g) s) (hok : Within g s e)
    (hstep : (system g).step s e = some t) (c : ContextPush) (advanced : Nat)
    (inserts : List (Insert α)) (hw : contextWrites g s e = some (c, advanced, inserts)) :
    (∀ insert ∈ inserts, ∀ slot, insert.Touches slot → c.OwnsFrom g advanced slot) ∧
      (∀ slot, ¬c.Owns g slot → t.fifo.buffer slot = s.fifo.buffer slot) ∧
      ((system g).ReachableBy (Safe g) s →
        ∀ insert ∈ inserts, ∀ slot, insert.Touches slot →
          (∀ q, e.caller ≠ some q → ¬(s.producer q).Reserves g slot) ∧
            s.fifo.isReady slot = false ∧
            Cyclic.Between g.nElements s.fifo.head s.fifo.tailReserved slot) := by
  have htracked := tracked_of_reachable hs
  have hleft : ∀ insert ∈ inserts, ∀ slot, insert.Touches slot → c.OwnsFrom g advanced slot :=
    fun insert hmem slot htouch => htracked.writes_left hok hw hmem htouch
  refine ⟨hleft, fun slot hout => ?_, fun hsafe insert hmem slot htouch => ?_⟩
  · rw [contextWrites_buffer hw hstep]
    exact write_untouched s.fifo inserts slot
      (fun insert hmem htouch => hout (hleft insert hmem slot htouch).owns)
  · obtain ⟨p, hcaller, hreserves⟩ := htracked.writes_reserved hw (List.ne_nil_of_mem hmem)
    obtain ⟨hothers, hready, hused⟩ :=
      (inv_of_reachable hsafe).reserved_apart (hreserves slot (hleft insert hmem slot htouch).owns)
    refine ⟨fun q hq => hothers q ?_, hready, hused⟩
    rintro rfl
    exact hq hcaller

-- Two contexts of one slot each. The first one stores its second object while
-- the shared tail stands behind the other one's slot.
theorem context_writes_foreign_slot :
    ¬∀ (g : Geometry) (s t : State Nat) (e : Event Nat) (c : ContextPush) (advanced : Nat)
      (inserts : List (Insert Nat)), (system g).Reachable s → (system g).step s e = some t →
      contextWrites g s e = some (c, advanced, inserts) →
      ∀ insert ∈ inserts, ∀ slot, insert.Touches slot → c.Owns g slot := by
  intro h
  have hreach := Transition.System.ReachableBy.get (system (Geometry.ofBytes 3 0 (by decide)))
    (fun _ _ => True) [.openPush 0 1, .openPush 1 1, .contextPush 0 7]
    ⟨fun _ => 0, rfl⟩ (by decide)
  have howned := h _ _ _ (.contextPush 0 8) ⟨1, 1, 0, 0, 1, 0, false⟩ 1 [⟨1, [8]⟩] hreach rfl rfl
    ⟨1, [8]⟩ (by simp) 1 ⟨by decide, by decide⟩
  revert howned
  decide

-- Producer 0 has filled its slot, and producer 1 writes the one behind it.
def twoContexts : List (Event Nat) := [.openPush 0 1, .openPush 1 1, .contextPush 0 7]

theorem twoContexts_runs : ((system (Geometry.ofBytes 3 0 (by decide))).runBy
    (Safe (Geometry.ofBytes 3 0 (by decide))) (start fun _ => 0) twoContexts).isSome := by decide

theorem context_writes_within_range_run :
    ∃ s, (system (Geometry.ofBytes 3 0 (by decide))).runBy (Safe (Geometry.ofBytes 3 0 (by decide)))
        (start fun _ => 0) twoContexts = some s ∧
      contextWrites (Geometry.ofBytes 3 0 (by decide)) s (.contextPush 1 8) =
        some (⟨1, 1, 1, 1, 1, 0, false⟩, 0, [⟨1, [8]⟩]) ∧
      (Insert.mk 1 [8]).Touches 1 ∧
      (ContextPush.mk 1 1 1 1 1 0 false).OwnsFrom (Geometry.ofBytes 3 0 (by decide)) 0 1 ∧
      ¬(s.producer 0).Reserves (Geometry.ofBytes 3 0 (by decide)) 1 := by
  have hstart : (system (Geometry.ofBytes 3 0 (by decide))).ReachableBy
      (Safe (Geometry.ofBytes 3 0 (by decide))) (start fun _ => 0) := .start ⟨_, rfl⟩
  have hreach := hstart.after twoContexts twoContexts_runs
  have htouch : (Insert.mk 1 [8]).Touches 1 := ⟨by decide, by decide⟩
  obtain ⟨hleft, _, happart⟩ := context_writes_within_range (e := .contextPush 1 8)
    (hreach.mono fun _ _ hok => hok.1) (by decide) rfl ⟨1, 1, 1, 1, 1, 0, false⟩ 0 [⟨1, [8]⟩] rfl
  refine ⟨_, (Option.some_get twoContexts_runs).symm, rfl, htouch, ?_, ?_⟩
  · exact hleft ⟨1, [8]⟩ (List.mem_singleton.mpr rfl) 1 htouch
  · exact (happart hreach ⟨1, [8]⟩ (List.mem_singleton.mpr rfl) 1 htouch).1 0 (by decide)

end Fifo

end Carbon
