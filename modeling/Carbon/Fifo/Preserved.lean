import Carbon.Fifo.Invariant

namespace Carbon

namespace Fifo

open Reservation

variable {α : Type} (g : Geometry)

def Producer.CloseExact (f : Fifo α) : Producer α → Prop
  | .context c _ _ => c.isOverflow = true ∨ ContextPush.CommitExact g f c.fifoPosStart c.fifoPosEnd
  | _ => True

-- The cases in which a reservation, a commit or a batch is not what its name
-- says are left out: ranges whose end 32 bits do not hold, or whose commit sets
-- other bits, and batches that step over slot N.
def Exact (s : State α) : Event α → Prop
  | .openPush _ nObjects =>
      s.fifo.isFullBy g nObjects = true ∨ s.fifo.tailReserved + nObjects ≤ 2 ^ 32
  | .closePush p => (s.producer p).CloseExact g s.fifo
  | .openPull => ¬HoleBeforeWrap g s.fifo
  | _ => True

def Safe (s : State α) (e : Event α) : Prop := Within g s e ∧ Exact g s e

instance (f : Fifo α) : DecidablePred (Producer.CloseExact g f)
  | .context c _ _ => inferInstanceAs
      (Decidable (c.isOverflow = true ∨ ContextPush.CommitExact g f c.fifoPosStart c.fifoPosEnd))
  | .idle | .pushing _ _ _ | .pushed _ _ | .filling _ _ _ _ _ => isTrue trivial

instance (s : State α) : DecidablePred (Exact g s)
  | .openPush _ nObjects => inferInstanceAs
      (Decidable (s.fifo.isFullBy g nObjects = true ∨ s.fifo.tailReserved + nObjects ≤ 2 ^ 32))
  | .closePush p => inferInstanceAs (Decidable ((s.producer p).CloseExact g s.fifo))
  | .openPull => inferInstanceAs (Decidable (¬HoleBeforeWrap g s.fifo))
  | .pushReserve _ _ | .pushInsert _ | .pushCommit _ | .contextPush _ _ | .contextArray _ _
  | .arrayEnter _ _ | .arrayRound _ _ | .popLook | .popRemove _ | .popAdvance | .pullRead
  | .closePull => isTrue trivial

instance (s : State α) (e : Event α) : Decidable (Safe g s e) := by
  unfold Safe; infer_instance

theorem construct_full (f : Fifo α) (nObjects : Nat) (hfull : f.isFullBy g nObjects = true) :
    ContextPush.construct g f nObjects = (f, ⟨nObjects, 0, 0, 0, 0, 0, true⟩) := by
  unfold ContextPush.construct
  rw [if_pos hfull]

theorem construct_fits (f : Fifo α) {high nObjects : Nat} (hfull : f.isFullBy g nObjects = false)
    (htail : f.tailReserved = high % g.bufferSize) (hpos : 0 < nObjects)
    (hle : nObjects ≤ g.nElements) (hsum : f.tailReserved + nObjects ≤ 2 ^ 32) :
    (ContextPush.construct g f nObjects).1 = { f with tailReserved := (high + nObjects) % g.bufferSize } ∧
      (ContextPush.construct g f nObjects).2.isOverflow = false ∧
      (ContextPush.construct g f nObjects).2.nObjects = nObjects ∧
      (ContextPush.construct g f nObjects).2.fifoPosStart = high % g.bufferSize ∧
      (ContextPush.construct g f nObjects).2.fifoPosEnd = (high + (nObjects - 1)) % g.bufferSize := by
  have hN := g.bufferSize_lt
  unfold Geometry.bufferSize at hN
  have hlast : uint32Sub nObjects 1 = nObjects - 1 := uint32Sub_of_le (by omega) hpos
  have hinc : incrementBy g f.tailReserved (uint32Sub nObjects 1) =
      (true, (high + (nObjects - 1)) % g.bufferSize) := by
    rw [hlast, htail]
    exact incrementBy_mod g high (by omega) (by rw [← htail]; omega)
  have hnext : increment g ((high + (nObjects - 1)) % g.bufferSize) =
      (high + nObjects) % g.bufferSize := by
    rw [increment_mod, Nat.add_assoc, Nat.sub_add_cancel hpos]
  obtain ⟨hover, hn, hstart, hend, hmoved⟩ := ContextPush.construct_reserves hfull
  rw [hinc] at hend hmoved
  exact ⟨by rw [hmoved, hnext], hover, hn, hstart.trans htail, hend⟩

variable {g} {s t : State α}

-- A context's own slots are the slots of the entries it holds.
theorem Covers.owns {l : Log α} {c : ContextPush} {entry : Nat} (h : Covers g l c entry)
    (hover : c.isOverflow = false) {slot : Nat} (hown : c.Owns g slot) :
    ∃ i, (c.isOverflow = false ∧ entry ≤ i ∧ i < entry + c.nObjects) ∧ slot = i % g.bufferSize := by
  obtain ⟨k, hk, rfl⟩ := hown
  refine ⟨entry + k, ⟨hover, by omega, by omega⟩, ?_⟩
  rw [(h hover).1, Nat.mod_add_mod]

-- The history moves as the abstract queue does.
theorem Inv.refines_pushReserve (h : Inv g s) {p : Nat} {object : α}
    (hstep : pushReserveStep g s p object = some t) :
    t.log = s.log ∨ Log.Step g.nElements s.log t.log := by
  obtain ⟨_, ⟨_, rfl⟩ | ⟨hfull, rfl⟩⟩ := pushReserveStep_cases hstep
  · exact .inl rfl
  · right
    apply Log.Step.promise
    have hroom := (isFull_iff g s.fifo h.sound.delivered_le h.sound.bounded h.head h.tail).not.mp
      (by simp [hfull])
    have hb := h.sound.bounded
    unfold Log.inUse
    omega

theorem Inv.refines_pushCommit (h : Inv g s) {p : Nat} (hstep : pushCommitStep s p = some t) :
    t.log = s.log ∨ Log.Step g.nElements s.log t.log := by
  obtain ⟨fifoPos, entry, hp, rfl⟩ := pushCommitStep_cases hstep
  right
  apply Log.Step.commit
  intro i hi hi'
  obtain rfl : i = entry := by omega
  have hheld : (s.producer p).Holds i := by rw [hp]; rfl
  obtain ⟨hlt, hc⟩ := h.held p i hheld
  have hlocal := h.producer p
  rw [hp] at hlocal
  refine ⟨hlt, hc, fun object ho => ?_⟩
  rw [hlocal.2, Option.some.injEq] at ho
  exact ho

theorem Inv.room (h : Inv g s) {nObjects : Nat} (hfull : s.fifo.isFullBy g nObjects = false)
    (hle : nObjects ≤ g.nElements) : s.log.inUse + nObjects ≤ g.nElements := by
  have hroom := (isFullBy_iff g s.fifo h.sound.delivered_le h.sound.bounded h.head h.tail hle).not.mp
    (by simp [hfull])
  unfold Log.inUse
  omega

theorem Inv.refines_openPush (h : Inv g s) {p nObjects : Nat}
    (hok : Safe g s (.openPush p nObjects)) (hstep : openPushStep g s p nObjects = some t) :
    t.log = s.log ∨ Log.Step g.nElements s.log t.log := by
  obtain ⟨_, _, rfl⟩ := openPushStep_cases hstep
  cases hfull : s.fifo.isFullBy g nObjects with
  | true => left; simp [construct_full g s.fifo nObjects hfull]
  | false =>
      obtain ⟨hpos, hle⟩ := hok.1.resolve_left (by simp [hfull])
      have hsum := hok.2.resolve_left (by simp [hfull])
      obtain ⟨_, hover, _⟩ := construct_fits g s.fifo hfull h.tail hpos hle hsum
      right
      simp only [hover, Bool.false_eq_true, ite_false]
      exact Log.Step.reserve (h.room hfull hle)

theorem Inv.context_held (h : Inv g s) {p : Nat} {c : ContextPush} {entry advanced : Nat}
    (hp : s.producer p = .context c entry advanced) (hover : c.isOverflow = false) {i : Nat}
    (hi : entry ≤ i) (hi' : i < entry + c.nObjects) :
    s.log.delivered.length ≤ i ∧ i < s.log.reserved ∧ s.log.committed i = false := by
  have hheld : (s.producer p).Holds i := by rw [hp]; exact ⟨hover, hi, hi'⟩
  exact ⟨h.held_ge hheld, h.held p i hheld⟩

theorem Inv.covers (h : Inv g s) {p : Nat} {c : ContextPush} {entry advanced : Nat}
    (hp : s.producer p = .context c entry advanced) : Covers g s.log c entry := by
  have hlocal := h.producer p
  rwa [hp] at hlocal

theorem Inv.refines_closePush (h : Inv g s) {p : Nat} (hstep : closePushStep g s p = some t) :
    t.log = s.log ∨ Log.Step g.nElements s.log t.log := by
  obtain ⟨c, entry, advanced, hp, rfl⟩ := closePushStep_cases hstep
  cases hover : c.isOverflow with
  | true => exact .inl rfl
  | false =>
      right
      apply Log.Step.commit
      intro i hi hi'
      obtain ⟨_, hlt, hc⟩ := h.context_held hp hover hi hi'
      obtain ⟨_, _, _, _, hnone⟩ := h.covers hp hover
      refine ⟨hlt, hc, fun object ho => ?_⟩
      rw [hnone i hi hi'] at ho
      cases ho

theorem Inv.refines_popAdvance (h : Inv g s) (hstep : popAdvanceStep g s = some t) :
    t.log = s.log ∨ Log.Step g.nElements s.log t.log := by
  obtain ⟨currentHead, object, hc, rfl⟩ := popAdvanceStep_cases hstep
  have hlocal := h.consumer
  rw [hc] at hlocal
  obtain ⟨_, hcommitted, hobject⟩ := hlocal
  right
  apply Log.Step.deliver
  intro k hk
  obtain rfl : k = 0 := by simpa using hk
  exact ⟨hcommitted, hobject⟩

theorem Inv.refines_closePull (h : Inv g s) (hstep : closePullStep g s = some t) :
    t.log = s.log ∨ Log.Step g.nElements s.log t.log := by
  obtain ⟨c, values, hc, hlen, rfl⟩ := closePullStep_cases hstep
  have hlocal := h.consumer
  rw [hc] at hlocal
  obtain ⟨_, _, hcommitted, _, hobject⟩ := hlocal
  right
  exact Log.Step.deliver fun k hk => ⟨hcommitted k (by omega), hobject k hk⟩

theorem Inv.refines (h : Inv g s) {e : Event α} (hok : Safe g s e) (hstep : step g s e = some t) :
    t.log = s.log ∨ Log.Step g.nElements s.log t.log := by
  cases e with
  | pushReserve p object => exact h.refines_pushReserve hstep
  | pushInsert p => obtain ⟨_, _, _, _, rfl⟩ := pushInsertStep_cases hstep; exact .inl rfl
  | pushCommit p => exact h.refines_pushCommit hstep
  | openPush p nObjects => exact h.refines_openPush hok hstep
  | contextPush p object => obtain ⟨_, _, _, _, rfl⟩ := contextPushStep_cases hstep; exact .inl rfl
  | contextArray p objects =>
      obtain ⟨_, _, _, _, rfl⟩ := contextArrayStep_cases hstep; exact .inl rfl
  | arrayEnter p length =>
      obtain ⟨_, _, _, _, rfl | ⟨_, rfl⟩⟩ := arrayEnterStep_cases hstep <;> exact .inl rfl
  | arrayRound p object =>
      obtain ⟨_, _, _, _, _, _, ⟨_, _, rfl⟩ | rfl⟩ := arrayRoundStep_cases hstep <;> exact .inl rfl
  | closePush p => exact h.refines_closePush hstep
  | popLook => obtain ⟨_, ⟨_, rfl⟩ | ⟨_, rfl⟩⟩ := popLookStep_cases hstep <;> exact .inl rfl
  | popRemove object => obtain ⟨_, _, _, _, rfl⟩ := popRemoveStep_cases hstep; exact .inl rfl
  | popAdvance => exact h.refines_popAdvance hstep
  | openPull => obtain ⟨_, _, _, _, rfl⟩ := openPullStep_cases hstep; exact .inl rfl
  | pullRead => obtain ⟨_, _, _, _, rfl⟩ := pullReadStep_cases hstep; exact .inl rfl
  | closePull => exact h.refines_closePull hstep

theorem Inv.sound_step (h : Inv g s) {e : Event α} (hok : Safe g s e)
    (hstep : step g s e = some t) : t.log.Sound g.nElements := by
  rcases h.refines hok hstep with heq | hlog
  · rw [heq]; exact h.sound
  · exact h.sound.step hlog

-- Writes into the slots a producer holds.
theorem Inv.write (h : Inv g s) {p : Nat} {x : Producer α} (inserts : List (Insert α))
    (hx : ∀ i, x.Holds i ↔ (s.producer p).Holds i)
    (htouch : ∀ insert ∈ inserts, ∀ slot, insert.Touches slot →
      ∃ i, (s.producer p).Holds i ∧ slot = i % g.bufferSize)
    (hknown : x.Local g s.log (s.fifo.write inserts).buffer) :
    Inv g { s.setProducer p x with fifo := s.fifo.write inserts } := by
  apply h.produces (p := p) (x := x)
  refine ⟨rfl, rfl, h.sound, rfl, rfl, h.tail, Nat.le_refl _, ?_, h.ready, ?_, ?_, ?_, hknown⟩
  · intro i hi hi' hnot
    refine ⟨rfl, rfl, write_untouched s.fifo inserts _ fun insert hmem ht => ?_⟩
    obtain ⟨j, hj, heq⟩ := htouch insert hmem _ ht
    have hij : i = j := h.slot_inj hi hi' (h.held_ge hj) (h.held p j hj).1 heq
    exact hnot (hij ▸ hj)
  · intro i hi
    exact (h.sound.open_end i hi).2
  · intro i hi hc
    have hc' := (h.held p i hi).2
    rw [show s.log.committed i = true from hc] at hc'
    cases hc'
  · intro i hi
    have hown := (hx i).mp hi
    exact ⟨(h.held p i hown).2, .inl hown⟩

theorem Inv.relabel (h : Inv g s) {p : Nat} {x : Producer α}
    (hx : ∀ i, x.Holds i ↔ (s.producer p).Holds i) (hknown : x.Local g s.log s.fifo.buffer) :
    Inv g (s.setProducer p x) :=
  h.write [] hx (by intro insert hmem; cases hmem) hknown

-- A commit of all the entries a producer holds.
theorem Inv.commit (h : Inv g s) {p low count : Nat} {content : Nat → α} {fifo : Fifo α}
    (hsound : (s.log.commit low count content).Sound g.nElements)
    (hholds : ∀ i, (s.producer p).Holds i ↔ low ≤ i ∧ i < low + count)
    (hcontent : ∀ i, low ≤ i → i < low + count → content i = s.fifo.buffer (i % g.bufferSize))
    (hhead : fifo.head = s.fifo.head) (htail : fifo.tailReserved = s.fifo.tailReserved)
    (hbuffer : fifo.buffer = s.fifo.buffer)
    (hready : ∀ slot, fifo.isReady slot = true ↔
      (∃ i, low ≤ i ∧ i < low + count ∧ i % g.bufferSize = slot) ∨ s.fifo.isReady slot = true) :
    Inv g { s.setProducer p .idle with fifo := fifo, log := s.log.commit low count content } := by
  apply h.produces (p := p) (x := .idle)
  refine ⟨rfl, rfl, hsound, rfl, hhead, htail.trans h.tail, Nat.le_refl _, ?_, ?_, ?_, ?_, ?_,
    trivial⟩
  · intro i hi hi' hnot
    obtain ⟨ho, hc⟩ := Log.commit_outside s.log content (mt (hholds i).mpr hnot)
    exact ⟨hc, ho, congrFun hbuffer _⟩
  · intro slot
    change fifo.isReady slot = true ↔ _
    rw [hready, h.ready]
    constructor
    · rintro (⟨i, hi, hi', rfl⟩ | ⟨i, hi, hc, rfl⟩)
      · exact ⟨i, h.held_ge ((hholds i).mpr ⟨hi, hi'⟩),
          (Log.commit_inside s.log content ⟨hi, hi'⟩).2, rfl⟩
      · exact ⟨i, hi, by simp [Log.commit, hc], rfl⟩
    · rintro ⟨i, hi, hc, rfl⟩
      simp only [Log.commit, Bool.or_eq_true, decide_eq_true_eq] at hc
      rcases hc with ⟨hlow, hhigh⟩ | hc
      · exact .inl ⟨i, hlow, hhigh, rfl⟩
      · exact .inr ⟨i, hi, hc, rfl⟩
  · intro i hi
    exact (hsound.open_end i hi).2
  · intro i hi _
    have hin := (hholds i).mp hi
    change (s.log.commit low count content).object i = some (fifo.buffer (i % g.bufferSize))
    rw [(Log.commit_inside s.log content hin).1, hcontent i hin.1 hin.2, hbuffer]
  · intro i hi
    cases hi

-- A delivery of the first committed entries.
theorem Inv.deliver (h : Inv g s) {values : List α} {fifo : Fifo α}
    (hsound : (s.log.deliver values).Sound g.nElements)
    (hhead : fifo.head = (s.log.delivered.length + values.length) % g.bufferSize)
    (htail : fifo.tailReserved = s.fifo.tailReserved) (hbuffer : fifo.buffer = s.fifo.buffer)
    (hready : ∀ slot, fifo.isReady slot = true ↔ s.fifo.isReady slot = true ∧
      ∀ k < values.length, slot ≠ (s.log.delivered.length + k) % g.bufferSize) :
    Inv g { s with fifo := fifo, consumer := .idle, log := s.log.deliver values } := by
  have hlen : (s.log.deliver values).delivered.length = s.log.delivered.length + values.length := by
    simp [Log.deliver]
  have hle := hsound.delivered_le
  rw [hlen] at hle
  have hle : s.log.delivered.length + values.length ≤ s.log.reserved := hle
  refine ⟨hsound, ?_, htail.trans h.tail, ?_, ?_, h.held, h.disjoint, ?_, trivial⟩
  · simp only [hlen, hhead]
  · intro slot
    simp only [hlen]
    rw [hready, h.ready]
    constructor
    · rintro ⟨⟨i, hi, hc, rfl⟩, hout⟩
      refine ⟨i, ?_, hc, rfl⟩
      by_contra hlt
      obtain ⟨k, rfl⟩ := Nat.exists_eq_add_of_le hi
      exact hout k (by omega) rfl
    · rintro ⟨i, hi, hc, rfl⟩
      refine ⟨⟨i, by omega, hc, rfl⟩, fun k hk heq => ?_⟩
      have hlt : i < s.log.reserved := h.sound.committed_lt hc
      have := h.slot_inj (by omega) hlt (Nat.le_add_right _ k) (by omega) heq
      omega
  · intro i hi hc
    simp only [hlen] at hi
    simp only [hbuffer]
    exact h.content i (by omega) hc
  · intro p
    simp only [hbuffer]
    exact (h.producer p).frame fun i _ => ⟨rfl, rfl⟩

theorem Inv.step_pushReserve (h : Inv g s) {p : Nat} {object : α}
    (hsound : t.log.Sound g.nElements) (hstep : pushReserveStep g s p object = some t) : Inv g t := by
  obtain ⟨hidle, ⟨_, rfl⟩ | ⟨hfull, rfl⟩⟩ := pushReserveStep_cases hstep
  · exact h
  have hne : ∀ i, i < s.log.reserved → (s.log.promise object).object i = s.log.object i := by
    intro i hi
    exact Function.update_of_ne (Nat.ne_of_lt hi) _ _
  apply h.produces
  refine ⟨rfl, rfl, hsound, rfl, rfl, ?_, Nat.le_succ _, fun i _ hi _ => ⟨rfl, hne i hi, rfl⟩,
    h.ready, fun i hi => (h.sound.open_end i hi).2, ?_, ?_, h.tail, Function.update_self _ _ _⟩
  · simp only [h.tail, increment_mod]
    rfl
  · intro i hi
    rw [hidle] at hi
    exact hi.elim
  · intro i hi
    obtain rfl : i = s.log.reserved := hi
    exact ⟨(h.sound.open_end _ (Nat.le_refl _)).2, .inr ⟨Nat.le_refl _, Nat.lt_succ_self _⟩⟩

theorem Inv.step_pushInsert (h : Inv g s) {p : Nat} (hstep : pushInsertStep g s p = some t) :
    Inv g t := by
  obtain ⟨object, fifoPos, entry, hp, rfl⟩ := pushInsertStep_cases hstep
  have hlocal := h.producer p
  rw [hp] at hlocal
  obtain ⟨hpos, hobject⟩ := hlocal
  have hle : fifoPos ≤ g.nElements := by
    rw [hpos]; exact Nat.le_of_lt_succ (Nat.mod_lt _ (Nat.succ_pos _))
  have hfits : g.fits fifoPos 1 = true :=
    g.fits_of_le hle (by unfold Geometry.bufferSize; omega)
  rw [show s.fifo.pushInsert g object fifoPos = s.fifo.write [⟨fifoPos, [object]⟩] by
    simp [pushInsert, hfits]]
  apply h.write
  · intro i
    rw [hp]
    exact Iff.rfl
  · intro insert hmem slot htouch
    obtain rfl := List.mem_singleton.mp hmem
    refine ⟨entry, by rw [hp]; rfl, ?_⟩
    simp only [Insert.Touches, List.length_singleton] at htouch
    omega
  · exact ⟨hpos, by rw [write_one]; exact hobject⟩

theorem Inv.step_pushCommit (h : Inv g s) {p : Nat} (hsound : t.log.Sound g.nElements)
    (hstep : pushCommitStep s p = some t) : Inv g t := by
  obtain ⟨fifoPos, entry, hp, rfl⟩ := pushCommitStep_cases hstep
  have hlocal := h.producer p
  rw [hp] at hlocal
  obtain ⟨hpos, _⟩ := hlocal
  refine h.commit hsound ?_ ?_ rfl rfl rfl ?_
  · intro i
    rw [hp]
    constructor
    · rintro rfl; exact ⟨Nat.le_refl _, Nat.lt_succ_self _⟩
    · intro hi; show i = entry; omega
  · intro i hi hi'
    obtain rfl : i = entry := by omega
    rw [hpos]
  · intro slot
    unfold pushCommit
    rw [bit_setReady, Bool.or_eq_true, decide_eq_true_eq, hpos]
    apply or_congr_left
    constructor
    · rintro rfl; exact ⟨entry, Nat.le_refl _, Nat.lt_succ_self _, rfl⟩
    · rintro ⟨i, hi, hi', rfl⟩
      obtain rfl : i = entry := by omega
      rfl

theorem Inv.step_openPush (h : Inv g s) {p nObjects : Nat}
    (hok : Safe g s (.openPush p nObjects)) (hsound : t.log.Sound g.nElements)
    (hstep : openPushStep g s p nObjects = some t) : Inv g t := by
  obtain ⟨hidle, _, rfl⟩ := openPushStep_cases hstep
  cases hfull : s.fifo.isFullBy g nObjects with
  | true =>
      simp only [construct_full g s.fifo nObjects hfull, ite_true]
      apply h.relabel
      · intro i
        rw [hidle]
        exact ⟨fun hi => absurd hi.1 (by simp), fun hi => hi.elim⟩
      · intro hover
        cases hover
  | false =>
      obtain ⟨hpos, hle⟩ := hok.1.resolve_left (by simp [hfull])
      have hsum := hok.2.resolve_left (by simp [hfull])
      obtain ⟨hfifo, hover, hn, hstart, hend⟩ := construct_fits g s.fifo hfull h.tail hpos hle hsum
      simp only [hfifo, hover, Bool.false_eq_true, ite_false] at hsound ⊢
      apply h.produces
      refine ⟨rfl, rfl, hsound, rfl, rfl, rfl, Nat.le_add_right _ _, fun i _ _ _ => ⟨rfl, rfl, rfl⟩,
        h.ready, fun i hi => (h.sound.open_end i hi).2, ?_, ?_, ?_⟩
      · intro i hi
        rw [hidle] at hi
        exact hi.elim
      · rintro i ⟨_, hi, hi'⟩
        rw [hn] at hi'
        exact ⟨(h.sound.open_end i hi).2, .inr ⟨hi, hi'⟩⟩
      · intro _
        rw [hn]
        exact ⟨hstart, hend, hpos, hle, fun i hi _ => (h.sound.open_end i hi).1⟩

-- The parts of a context that write keep its range, and so do the entries.
theorem Inv.step_context (h : Inv g s) {p : Nat} (c : ContextPush) (entry : Nat) {c' : ContextPush}
    {x : Producer α} {inserts : List (Insert α)}
    (hholds : ∀ i, (s.producer p).Holds i ↔ c.isOverflow = false ∧ entry ≤ i ∧ i < entry + c.nObjects)
    (hcovers : Covers g s.log c entry) (hindex : ∃ index, c' = { c with index := index })
    (hx : ∀ i, x.Holds i ↔ c'.isOverflow = false ∧ entry ≤ i ∧ i < entry + c'.nObjects)
    (hxlocal : ∀ buffer, Covers g s.log c' entry → x.Local g s.log buffer)
    (hover : inserts ≠ [] → c.isOverflow = false)
    (howns : ∀ insert ∈ inserts, ∀ slot, insert.Touches slot → c.Owns g slot) :
    Inv g { s.setProducer p x with fifo := s.fifo.write inserts } := by
  obtain ⟨index, rfl⟩ := hindex
  apply h.write
  · intro i
    rw [hx, hholds]
  · intro insert hmem slot htouch
    have hne := hover (List.ne_nil_of_mem hmem)
    obtain ⟨i, hi, rfl⟩ := hcovers.owns hne (howns insert hmem slot htouch)
    exact ⟨i, (hholds i).mpr hi, rfl⟩
  · exact hxlocal _ hcovers

-- As long as the range is not used up, index_ differs from the shared tail
-- and push stores its object in the next slot of the range.
theorem Inv.contextPush_stores (h : Inv g s) (htracked : Tracked g s) {p : Nat} {c : ContextPush}
    {entry advanced : Nat} (hp : s.producer p = .context c entry advanced)
    (hover : c.isOverflow = false) (hlt : advanced < c.nObjects) (object : α) :
    c.push g s.fifo.tailReserved object =
      ⟨true, { c with index := increment g c.index }, 1,
        [⟨(entry + advanced) % g.bufferSize, [object]⟩]⟩ := by
  have htrack := htracked.of_context hp
  have hindex : c.index = (entry + advanced) % g.bufferSize := by
    rw [(htrack hover).2, (h.covers hp hover).1, Nat.mod_add_mod]
  obtain ⟨hge, hlast, _⟩ := h.context_held hp hover (Nat.le_add_right entry advanced) (by omega)
  have hbound := h.sound.bounded
  have hne : c.index ≠ s.fifo.tailReserved := by
    rw [hindex, h.tail]
    intro heq
    have := Cyclic.window_inj g.bufferSize _ hge
      (by unfold Geometry.bufferSize; omega) (Nat.le_trans hge (Nat.le_of_lt hlast))
      (by unfold Geometry.bufferSize; omega) heq
    omega
  have hle := htrack.index_le hover
  have hfits : g.fits c.index 1 = true := g.fits_of_le hle (by unfold Geometry.bufferSize; omega)
  unfold ContextPush.push ContextPush.insertOne
  rw [if_neg (by simp [hover]), if_pos hne, if_pos hfits, ← hindex]

theorem Inv.step_contextPush (h : Inv g s) (htracked : Tracked g s) {p : Nat} {object : α}
    (hok : Within g s (.contextPush p object)) (hstep : contextPushStep g s p object = some t) :
    Inv g t := by
  obtain ⟨c, entry, advanced, hp, rfl⟩ := contextPushStep_cases hstep
  refine h.step_context c entry ?_ (h.covers hp)
    (ContextPush.push_context _ _) (fun _ => Iff.rfl) (fun _ hc => hc) ?_ ?_
  · intro i
    rw [hp]
    exact Iff.rfl
  · intro hne
    by_contra hover
    apply hne
    rw [Bool.not_eq_false] at hover
    simp [ContextPush.push, hover]
  · intro insert hmem slot htouch
    have hw : contextWrites g s (.contextPush p object) =
        some (c, advanced, (c.push g s.fifo.tailReserved object).inserts) := by
      simp [contextWrites, hp]
    exact (htracked.writes_left hok hw hmem htouch).owns

theorem Inv.step_contextArray (h : Inv g s) (htracked : Tracked g s) {p : Nat} {objects : List α}
    (hok : Within g s (.contextArray p objects)) (hstep : contextArrayStep g s p objects = some t) :
    Inv g t := by
  obtain ⟨c, entry, advanced, hp, rfl⟩ := contextArrayStep_cases hstep
  refine h.step_context c entry ?_ (h.covers hp)
    (ContextPush.pushArray_context _) (fun _ => Iff.rfl) (fun _ hc => hc) ?_ ?_
  · intro i
    rw [hp]
    exact Iff.rfl
  · intro hne
    by_contra hover
    apply hne
    rw [ContextPush.pushArray_refused objects (.inl (by simpa using hover))]
  · intro insert hmem slot htouch
    have hw : contextWrites g s (.contextArray p objects) =
        some (c, advanced, (c.pushArray g objects).inserts) := by
      simp [contextWrites, hp]
    exact (htracked.writes_left hok hw hmem htouch).owns

theorem Inv.step_arrayEnter (h : Inv g s) {p length : Nat}
    (hstep : arrayEnterStep g s p length = some t) : Inv g t := by
  obtain ⟨c, entry, advanced, hp, rfl | ⟨_, rfl⟩⟩ := arrayEnterStep_cases hstep
  · exact h
  · apply h.relabel
    · intro i
      rw [hp]
      exact Iff.rfl
    · exact h.covers hp

theorem Inv.step_arrayRound (h : Inv g s) (htracked : Tracked g s) {p : Nat} {object : α}
    (hok : Within g s (.arrayRound p object)) (hstep : arrayRoundStep g s p object = some t) :
    Inv g t := by
  obtain ⟨c, entry, advanced, i, length, hp, hround⟩ := arrayRoundStep_cases hstep
  have hcovers : Covers g s.log c entry := by
    have hlocal := h.producer p
    rwa [hp] at hlocal
  rcases hround with ⟨hgo, _, rfl⟩ | rfl
  · refine h.step_context c entry ?_ hcovers
      (ContextPush.insertOne_context _) (fun _ => Iff.rfl) (fun _ hc => hc) ?_ ?_
    · intro i
      rw [hp]
      exact Iff.rfl
    · exact fun _ => (htracked.of_filling hp).1
    · intro insert hmem slot htouch
      have hw : contextWrites g s (.arrayRound p object) =
          some (c, advanced, (c.insertOne g object).inserts) := by
        simp [contextWrites, hp, hgo]
      exact (htracked.writes_left hok hw hmem htouch).owns
  · apply h.relabel
    · intro i
      rw [hp]
      exact Iff.rfl
    · exact hcovers

theorem Inv.step_closePush (h : Inv g s) {p : Nat} (hok : Exact g s (.closePush p))
    (hsound : t.log.Sound g.nElements) (hstep : closePushStep g s p = some t) : Inv g t := by
  obtain ⟨c, entry, advanced, hp, rfl⟩ := closePushStep_cases hstep
  cases hover : c.isOverflow with
  | true =>
      have hsame : c.destruct g s.fifo = s.fifo := by simp [ContextPush.destruct, hover]
      simp only [hsame, ite_true]
      apply h.relabel
      · intro i
        rw [hp]
        exact ⟨fun hi => hi.elim, fun hi => absurd hi.1 (by simp [hover])⟩
      · trivial
  | false =>
      simp only [hover, Bool.false_eq_true, ite_false] at hsound ⊢
      obtain ⟨hstart, hend, hpos, hle, _⟩ := h.covers hp hover
      have hexact : ContextPush.CommitExact g s.fifo c.fifoPosStart c.fifoPosEnd := by
        simpa [Exact, hp, Producer.CloseExact, hover] using hok
      -- the range ends one slot in front of this one
      have hafter : increment g c.fifoPosEnd = (entry + c.nObjects) % g.bufferSize := by
        rw [hend, increment_mod, Nat.add_assoc, Nat.sub_add_cancel hpos]
      have hlt : ∀ i, i % g.bufferSize ≤ g.nElements :=
        fun i => Nat.le_of_lt_succ (Nat.mod_lt _ (Nat.succ_pos _))
      have hbits : ∀ slot, s.fifo.isReady slot = true → slot ≤ g.nElements := by
        intro slot hr
        obtain ⟨i, _, _, rfl⟩ := (h.ready slot).mp hr
        exact hlt i
      have hne : increment g c.fifoPosEnd ≠ c.fifoPosStart := by
        rw [hafter, hstart]
        intro heq
        have := Cyclic.window_inj g.bufferSize entry (by omega)
          (by unfold Geometry.bufferSize; omega) (Nat.le_refl _)
          (by unfold Geometry.bufferSize; omega) heq
        omega
      obtain ⟨hhead, htail, hbuffer⟩ := destruct_frame g s.fifo c
      refine h.commit hsound ?_ ?_ hhead htail hbuffer ?_
      · intro i
        rw [hp]
        exact ⟨fun hi => hi.2, fun hi => ⟨hover, hi⟩⟩
      · intro i hi hi'
        unfold contextContent
        rw [hstart, Nat.mod_add_mod, Nat.add_sub_of_le hi]
      · intro slot
        rw [ContextPush.destruct_isReady g s.fifo c hover (hstart ▸ hlt entry) (hend ▸ hlt _) hne
          hexact hbits slot, hafter, hstart]
        unfold Geometry.bufferSize
        rw [Cyclic.between_mod_iff (Nat.le_add_right _ _) (by omega)]

theorem Inv.step_popLook (h : Inv g s) (hstep : popLookStep s = some t) : Inv g t := by
  obtain ⟨_, ⟨_, rfl⟩ | ⟨hready, rfl⟩⟩ := popLookStep_cases hstep
  · exact h
  · refine ⟨h.sound, h.head, h.tail, h.ready, h.content, h.held, h.disjoint, h.producer, h.head, ?_⟩
    obtain ⟨i, hi, hc, heq⟩ := (h.ready _).mp hready
    have hlt := h.sound.committed_lt hc
    rw [h.head] at heq
    rwa [h.slot_inj hi hlt (Nat.le_refl _) (by omega) heq] at hc

theorem Inv.step_popRemove (h : Inv g s) {object : α} (hstep : popRemoveStep g s object = some t) :
    Inv g t := by
  obtain ⟨currentHead, value, hc, hvalue, rfl⟩ := popRemoveStep_cases hstep
  have hlocal := h.consumer
  rw [hc] at hlocal
  obtain ⟨hhead, hcommitted⟩ := hlocal
  have hle : currentHead ≤ g.nElements := by
    rw [hhead]; exact Nat.le_of_lt_succ (Nat.mod_lt _ (Nat.succ_pos _))
  have hfits : g.fits currentHead 1 = true :=
    g.fits_of_le hle (by unfold Geometry.bufferSize; omega)
  -- the copy is the element of the head's slot
  obtain rfl : s.fifo.buffer currentHead = value := by
    unfold popRemove at hvalue
    split_ifs at hvalue
    exact Option.some.inj hvalue
  refine ⟨h.sound, h.head, h.tail, h.ready, h.content, h.held, h.disjoint, h.producer, hhead,
    hcommitted, ?_⟩
  rw [hhead]
  exact h.content _ (Nat.le_refl _) hcommitted

theorem Inv.step_popAdvance (h : Inv g s) (hsound : t.log.Sound g.nElements)
    (hstep : popAdvanceStep g s = some t) : Inv g t := by
  obtain ⟨currentHead, object, hc, rfl⟩ := popAdvanceStep_cases hstep
  have hlocal := h.consumer
  rw [hc] at hlocal
  obtain ⟨hhead, _, _⟩ := hlocal
  -- the slot that is released is the head's
  have hsame : s.fifo.popAdvance g currentHead = ContextPull.removeHead g s.fifo := by
    rw [hhead, ← h.head]
    rfl
  obtain ⟨hh, ht, hb, hr⟩ := ContextPull.removeHead_iterate g s.fifo h.head 1
  rw [hsame]
  exact h.deliver hsound hh ht hb hr

-- The two lengths of a batch are the pieces of the committed run.
theorem Inv.openPull_run (h : Inv g s) (hhole : ¬HoleBeforeWrap g s.fifo) :
    ∃ dataLength1 dataLength2, s.fifo.getElementReady g = some (dataLength1, dataLength2) ∧
      dataLength1 + dataLength2 = s.log.committedRun ∧
      Pieces g s.fifo.head s.log.committedRun dataLength1 dataLength2 ∧
      ∀ k < s.log.committedRun, s.log.committed (s.log.delivered.length + k) = true := by
  obtain ⟨count, d1, d2, hget, hpieces, hcount, hrun, hstop⟩ :=
    getElementReady_exact g s.fifo h.head_le hhole
  have hsum : d1 + d2 = count := by
    unfold Pieces at hpieces
    omega
  have hslot : ∀ k, (s.fifo.head + k) % g.bufferSize =
      (s.log.delivered.length + k) % g.bufferSize := by
    intro k
    rw [h.head, Nat.mod_add_mod]
  have hbound := h.sound.bounded
  have hle := h.sound.delivered_le
  -- the slot behind the last reserved one is not ready
  have hinside : count ≤ s.log.inUse := by
    unfold Log.inUse
    by_contra hlt
    have hfree := h.not_ready_of_tail s.log.reserved (Nat.le_refl _)
      (by unfold Geometry.bufferSize; omega)
    have hr := hrun (s.log.reserved - s.log.delivered.length) (by omega)
    rw [hslot, Nat.add_sub_of_le hle, hfree] at hr
    cases hr
  have hcommitted : ∀ k < count, s.log.committed (s.log.delivered.length + k) = true := by
    intro k hk
    have hr := hrun k hk
    unfold Log.inUse at hinside
    rwa [hslot, h.ready_mod (Nat.le_add_right _ _) (by omega)] at hr
  have hrunlen : s.log.committedRun = count := by
    apply Log.committedRun_eq hinside hcommitted
    intro hlt
    unfold Log.inUse at hlt
    have hr := hstop (by unfold Geometry.bufferSize; omega)
    rw [hslot] at hr
    by_contra hc
    rw [Bool.not_eq_false] at hc
    rw [(h.ready_mod (Nat.le_add_right _ _) (by omega)).mpr hc] at hr
    cases hr
  rw [hrunlen]
  exact ⟨d1, d2, hget, hsum, hpieces, hcommitted⟩

theorem Inv.step_openPull (h : Inv g s) (hok : ¬HoleBeforeWrap g s.fifo)
    (hstep : openPullStep g s = some t) : Inv g t := by
  obtain ⟨_, d1, d2, hget, rfl⟩ := openPullStep_cases hstep
  obtain ⟨d1', d2', hget', hsum, hpieces, hcommitted⟩ := h.openPull_run hok
  rw [hget] at hget'
  obtain ⟨rfl, rfl⟩ := Prod.mk.inj (Option.some.inj hget')
  rw [← hsum] at hpieces hcommitted
  refine ⟨h.sound, h.head, h.tail, h.ready, h.content, h.held, h.disjoint, h.producer, h.head,
    hpieces, hcommitted, Nat.zero_le _, ?_⟩
  intro k hk
  cases hk

-- The k-th slot of a batch, counted from the head round the ring.
theorem Pieces.slot {head count : Nat} {c : ContextPull} (hhead : head ≤ g.nElements)
    (h : Pieces g head count c.dataLength1 c.dataLength2) (hc : c.currentHead = head)
    (hcount : count ≤ g.bufferSize) {k : Nat} (hk : k < count) :
    c.slot k = (head + k) % g.bufferSize := by
  unfold Pieces Geometry.bufferSize at *
  unfold ContextPull.slot
  rw [hc]
  split
  · exact (Nat.mod_eq_of_lt (by omega)).symm
  · rw [show head + k = k - c.dataLength1 + (g.nElements + 1) by omega, Nat.add_mod_right,
      Nat.mod_eq_of_lt (by omega)]

theorem Inv.pulling_slot (h : Inv g s) {c : ContextPull} {values : List α}
    (hc : s.consumer = .pulling c values) {k : Nat} (hk : k < c.dataLength1 + c.dataLength2) :
    s.log.committed (s.log.delivered.length + k) = true ∧
      c.slot k = (s.log.delivered.length + k) % g.bufferSize := by
  have hlocal := h.consumer
  rw [hc] at hlocal
  obtain ⟨hhead, hpieces, hcommitted, _, _⟩ := hlocal
  refine ⟨hcommitted k hk, ?_⟩
  have hbound := h.sound.bounded
  have hlast := h.sound.committed_lt (hcommitted (c.dataLength1 + c.dataLength2 - 1) (by omega))
  rw [Pieces.slot (g := g) (by rw [hhead]; exact Nat.le_of_lt_succ (Nat.mod_lt _ (Nat.succ_pos _)))
    hpieces rfl (by unfold Geometry.bufferSize; omega) hk, hhead, Nat.mod_add_mod]

theorem Inv.step_pullRead (h : Inv g s) (hstep : pullReadStep s = some t) : Inv g t := by
  obtain ⟨c, values, hc, hlt, rfl⟩ := pullReadStep_cases hstep
  obtain ⟨hcommitted, hslot⟩ := h.pulling_slot hc hlt
  have hlocal := h.consumer
  rw [hc] at hlocal
  obtain ⟨hhead, hpieces, hrun, _, hvalues⟩ := hlocal
  refine ⟨h.sound, h.head, h.tail, h.ready, h.content, h.held, h.disjoint, h.producer, hhead,
    hpieces, hrun, ?_, ?_⟩
  · rw [List.length_append, List.length_singleton]
    exact hlt
  · intro k hk
    rw [List.length_append, List.length_singleton] at hk
    by_cases hold : k < values.length
    · rw [List.getElem_append_left hold]
      exact hvalues k hold
    · obtain rfl : k = values.length := by omega
      rw [List.getElem_append_right (Nat.le_refl _)]
      simp only [Nat.sub_self, List.getElem_cons_zero, hslot]
      exact h.content _ (Nat.le_add_right _ _) hcommitted

theorem Inv.step_closePull (h : Inv g s) (hsound : t.log.Sound g.nElements)
    (hstep : closePullStep g s = some t) : Inv g t := by
  obtain ⟨c, values, _, hlen, rfl⟩ := closePullStep_cases hstep
  obtain ⟨hh, ht, hb, hr⟩ := ContextPull.removeHead_iterate g s.fifo h.head values.length
  unfold ContextPull.destruct
  rw [← hlen]
  exact h.deliver hsound hh ht hb hr

theorem Inv.step (h : Inv g s) (htracked : Tracked g s) {e : Event α} (hok : Safe g s e)
    (hstep : step g s e = some t) : Inv g t := by
  have hsound := h.sound_step hok hstep
  cases e with
  | pushReserve p object => exact h.step_pushReserve hsound hstep
  | pushInsert p => exact h.step_pushInsert hstep
  | pushCommit p => exact h.step_pushCommit hsound hstep
  | openPush p nObjects => exact h.step_openPush hok hsound hstep
  | contextPush p object => exact h.step_contextPush htracked hok.1 hstep
  | contextArray p objects => exact h.step_contextArray htracked hok.1 hstep
  | arrayEnter p length => exact h.step_arrayEnter hstep
  | arrayRound p object => exact h.step_arrayRound htracked hok.1 hstep
  | closePush p => exact h.step_closePush hok.2 hsound hstep
  | popLook => exact h.step_popLook hstep
  | popRemove object => exact h.step_popRemove hstep
  | popAdvance => exact h.step_popAdvance hsound hstep
  | openPull => exact h.step_openPull hok.2 hstep
  | pullRead => exact h.step_pullRead hstep
  | closePull => exact h.step_closePull hsound hstep

theorem inv_start (buffer : Nat → α) : Inv g (start buffer) where
  sound := Log.sound_empty _
  head := (Nat.zero_mod _).symm
  tail := (Nat.zero_mod _).symm
  ready := by
    intro slot
    constructor
    · intro h
      simp [start, isReady_eq_bit, Packed.bit] at h
    · rintro ⟨i, _, hc, _⟩
      cases hc
  content := by intro i _ hc; cases hc
  held := by intro p i hi; exact hi.elim
  disjoint := by intro p q i hi; exact hi.elim
  producer := fun _ => trivial
  consumer := trivial

theorem inv_of_reachable {s : State α} (hs : (system g).ReachableBy (Safe g) s) : Inv g s := by
  have hboth : Tracked g s ∧ Inv g s := by
    refine hs.invariant (P := fun s => Tracked g s ∧ Inv g s) ?_ ?_
    · rintro s ⟨buffer, rfl⟩
      exact ⟨tracked_start g buffer, inv_start buffer⟩
    · rintro s e t ⟨htracked, h⟩ hok hstep
      exact ⟨htracked.step hok.1 hstep, h.step htracked hok hstep⟩
  exact hboth.2

end Fifo

end Carbon
