import Carbon.Fifo.Preserved

namespace Carbon

namespace Fifo

open Reservation

variable {α : Type} {g : Geometry} {s t : State α}

instance (head count dataLength1 dataLength2 : Nat) :
    Decidable (Pieces g head count dataLength1 dataLength2) := by
  unfold Pieces; infer_instance

theorem openPull_consumer {c : ContextPull} (hstep : step g s .openPull = some t)
    (hc : t.consumer = .pulling c []) :
    c.currentHead = s.fifo.head ∧ s.fifo.getElementReady g = some (c.dataLength1, c.dataLength2) := by
  obtain ⟨_, d1, d2, hget, rfl⟩ := openPullStep_cases hstep
  simp only [Consumer.pulling.injEq] at hc
  obtain ⟨rfl, _⟩ := hc
  exact ⟨rfl, hget⟩

-- An opened batch is the committed run exactly when no hole stands in front of
-- the wrap.
theorem Inv.openPull_iff (h : Inv g s) {c : ContextPull} (hstep : Fifo.step g s .openPull = some t)
    (hc : t.consumer = .pulling c []) :
    Pieces g s.fifo.head s.log.committedRun c.dataLength1 c.dataLength2 ↔
      ¬HoleBeforeWrap g s.fifo := by
  obtain ⟨_, hget⟩ := openPull_consumer hstep hc
  constructor
  · rintro ⟨h1, h2⟩ hhole
    obtain ⟨d2, hget', hpos⟩ := getElementReady_hole g s.fifo h.head_le hhole
    rw [hget, Option.some.injEq, Prod.mk.injEq] at hget'
    obtain ⟨hd1, hd2⟩ := hget'
    have hle := h.head_le
    unfold Geometry.bufferSize at h1
    omega
  · intro hhole
    obtain ⟨d1, d2, hget', _, hpieces, _⟩ := h.openPull_run hhole
    rw [hget, Option.some.injEq, Prod.mk.injEq] at hget'
    obtain ⟨rfl, rfl⟩ := hget'
    exact hpieces

-- The slots of an open batch are ready, no more than the buffer has, and hold
-- what was copied from them.
theorem Inv.pulling_ready (h : Inv g s) {c : ContextPull} {values : List α}
    (hc : s.consumer = .pulling c values) {k : Nat} (hk : k < c.dataLength1 + c.dataLength2) :
    s.fifo.isReady ((s.log.delivered.length + k) % g.bufferSize) = true := by
  have hcommitted := (h.pulling_slot hc hk).1
  exact (h.ready_mod (Nat.le_add_right _ _) (h.sound.committed_lt hcommitted)).mpr hcommitted

theorem Inv.pulling_le (h : Inv g s) {c : ContextPull} {values : List α}
    (hc : s.consumer = .pulling c values) : c.dataLength1 + c.dataLength2 ≤ g.bufferSize := by
  have hbound := h.sound.bounded
  rcases Nat.eq_zero_or_pos (c.dataLength1 + c.dataLength2) with h0 | hpos
  · omega
  · have hlast := h.sound.committed_lt (h.pulling_slot hc (Nat.sub_lt hpos Nat.one_pos)).1
    unfold Geometry.bufferSize
    omega

theorem Inv.pulling_values (h : Inv g s) {c : ContextPull} {values : List α}
    (hc : s.consumer = .pulling c values) (hlen : values.length = c.dataLength1 + c.dataLength2) :
    (List.range values.length).map (fun k => s.fifo.buffer ((s.log.delivered.length + k) % g.bufferSize)) =
      values := by
  have hlocal := h.consumer
  rw [hc] at hlocal
  obtain ⟨_, _, _, _, hvalues⟩ := hlocal
  apply List.ext_getElem (by simp)
  intro k hk hk'
  have hdue := h.content _ (Nat.le_add_right _ _) (h.pulling_slot hc (hlen ▸ hk')).1
  rw [hvalues k hk', Option.some.injEq] at hdue
  simp [← hdue]

-- Closing a batch is as many pops as it exposed, with what they return for its
-- values.
theorem Inv.closePull_pops (h : Inv g s) (hstep : Fifo.step g s .closePull = some t)
    (narrow : α → α → α) (object : α) :
    ∃ c values, s.consumer = .pulling c values ∧ values.length = c.dataLength1 + c.dataLength2 ∧
      pops g narrow object values.length s.fifo = (values.map (returned g narrow object), t.fifo) ∧
      t.log.delivered = s.log.delivered ++ values ∧
      t.fifo.head = (s.fifo.head + values.length) % g.bufferSize ∧
      ∀ slot, t.fifo.isReady slot = true ↔
        s.fifo.isReady slot = true ∧ ∀ k < values.length, slot ≠ c.slot k := by
  obtain ⟨c, values, hc, hlen, rfl⟩ := closePullStep_cases hstep
  have hslot : ∀ k < values.length, c.slot k = (s.log.delivered.length + k) % g.bufferSize :=
    fun k hk => (h.pulling_slot hc (hlen ▸ hk)).2
  have hpops := ContextPull.pops_eq g narrow s.fifo h.head object values.length (hlen ▸ h.pulling_le hc)
    fun k hk => h.pulling_ready hc (hlen ▸ hk)
  obtain ⟨hhead, _, _, hready⟩ := ContextPull.removeHead_iterate g s.fifo h.head values.length
  have hfifo : ContextPull.destruct g s.fifo c = (ContextPull.removeHead g)^[values.length] s.fifo := by
    unfold ContextPull.destruct
    rw [hlen]
  refine ⟨c, values, hc, hlen, ?_, rfl, ?_, fun slot => ?_⟩
  · have hcopied := congrArg (List.map (returned g narrow object)) (h.pulling_values hc hlen)
    rw [List.map_map] at hcopied
    rw [hpops, hfifo]
    exact congrArg (·, _) hcopied
  · rw [hfifo, hhead, h.head, Nat.mod_add_mod]
  · rw [hfifo, hready slot]
    apply and_congr_right
    intro _
    constructor
    · intro hout k hk
      rw [hslot k hk]
      exact hout k hk
    · intro hout k hk
      rw [← hslot k hk]
      exact hout k hk

-- In a run of safe steps a batch is the maximal committed run from the head,
-- it stays so until it is closed, closing it is the same as that many pops,
-- and everything delivered so far is the accepted sequence in order.
theorem context_pull_exact (hs : (system g).ReachableBy (Safe g) s) :
    (∀ t c, (system g).step s .openPull = some t → t.consumer = .pulling c [] →
      c.currentHead = s.fifo.head ∧
        (Pieces g s.fifo.head s.log.committedRun c.dataLength1 c.dataLength2 ↔
          ¬HoleBeforeWrap g s.fifo)) ∧
    (∀ c values, s.consumer = .pulling c values → c.currentHead = s.fifo.head ∧
      ∀ k < c.dataLength1 + c.dataLength2, s.log.committed (s.log.delivered.length + k) = true ∧
        c.slot k = (s.log.delivered.length + k) % g.bufferSize) ∧
    (∀ t narrow object, (system g).step s .closePull = some t →
      ∃ c values, s.consumer = .pulling c values ∧ values.length = c.dataLength1 + c.dataLength2 ∧
        pops g narrow object values.length s.fifo =
          (values.map fun value => if g.packed then value else narrow object value, t.fifo) ∧
        t.log.delivered = s.log.delivered ++ values ∧
        t.fifo.head = (s.fifo.head + values.length) % g.bufferSize ∧
        ∀ slot, t.fifo.isReady slot = true ↔
          s.fifo.isReady slot = true ∧ ∀ k < values.length, slot ≠ c.slot k) ∧
    (∀ e t, Safe g s e → (system g).step s e = some t → ∀ i object,
      s.log.object i = some object → t.log.object i = some object) ∧
    s.log.delivered.map some <+: s.log.accepted := by
  have h := inv_of_reachable hs
  refine ⟨?_, ?_, fun t narrow object hstep => h.closePull_pops hstep narrow object, ?_, h.sound.delivered_initial⟩
  · intro t c hstep hc
    exact ⟨(openPull_consumer hstep hc).1, h.openPull_iff hstep hc⟩
  · intro c values hc
    have hlocal := h.consumer
    rw [hc] at hlocal
    exact ⟨hlocal.1.trans h.head.symm, fun k hk => h.pulling_slot hc hk⟩
  · intro e t hok hstep i object hi
    rcases h.refines hok hstep with heq | hlog
    · rw [heq]; exact hi
    · exact hlog.object_stable h.sound hi

-- Slot N is reserved and slot 0 behind it is committed: the batch starts with
-- slot 0.
theorem context_pull_skips :
    ¬∀ (g : Geometry) (s t : State Nat) (c : ContextPull), (system g).Reachable s →
      (system g).step s .openPull = some t → t.consumer = .pulling c [] →
      Pieces g s.fifo.head s.log.committedRun c.dataLength1 c.dataLength2 := by
  intro h
  have hreach := Transition.System.ReachableBy.get (system (Geometry.ofBytes 2 0 (by decide)))
    (fun _ _ => True) [.pushReserve 0 7, .pushInsert 0, .pushCommit 0, .pushReserve 0 8,
      .pushInsert 0, .pushCommit 0, .openPull, .pullRead, .pullRead, .closePull,
      .pushReserve 0 1, .pushReserve 1 2, .pushInsert 1, .pushCommit 1] ⟨fun _ => 0, rfl⟩ (by decide)
  have hpieces := h _ _ _ ⟨2, 0, 1⟩ hreach rfl rfl
  revert hpieces
  decide

-- A batch that wraps, with a hole behind it.
def batched : List (Event Nat) :=
  [.openPush 0 2, .contextPush 0 7, .contextPush 0 8, .closePush 0, .openPull, .pullRead, .pullRead, .closePull,
    .pushReserve 0 3, .pushReserve 1 4]

theorem batched_runs : ((system (Geometry.ofBytes 2 0 (by decide))).runBy
    (Safe (Geometry.ofBytes 2 0 (by decide))) (start fun _ => 0) batched).isSome := by decide

theorem context_pull_exact_run :
    ∃ s, (system (Geometry.ofBytes 2 0 (by decide))).runBy (Safe (Geometry.ofBytes 2 0 (by decide)))
        (start fun _ => 0) batched = some s ∧
      s.log.accepted = [some 7, some 8, some 3, some 4] ∧ s.log.delivered = [7, 8] ∧
      s.log.delivered.map some <+: s.log.accepted := by
  have hstart : (system (Geometry.ofBytes 2 0 (by decide))).ReachableBy
      (Safe (Geometry.ofBytes 2 0 (by decide))) (start fun _ => 0) := .start ⟨_, rfl⟩
  obtain ⟨_, _, _, _, hinitial⟩ := context_pull_exact (hstart.after batched batched_runs)
  exact ⟨_, (Option.some_get batched_runs).symm, by decide +kernel, by decide +kernel, hinitial⟩

end Fifo

end Carbon
