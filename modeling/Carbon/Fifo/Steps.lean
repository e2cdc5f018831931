import Carbon.Fifo.Machine

namespace Carbon

namespace Fifo

open Reservation

variable {α : Type} {g : Geometry} {s t : State α}

-- What each part of an operation can do, guards included.
theorem pushReserveStep_cases {p : Nat} {object : α} (h : pushReserveStep g s p object = some t) :
    s.producer p = .idle ∧
      (s.fifo.isFull g = true ∧ t = s ∨
        s.fifo.isFull g = false ∧
          t = { s.setProducer p (.pushing object s.fifo.tailReserved s.log.reserved) with
            fifo := { s.fifo with tailReserved := increment g s.fifo.tailReserved }
            log := s.log.promise object }) := by
  unfold pushReserveStep pushReserve at h
  split at h
  · rename_i hidle
    refine ⟨hidle, ?_⟩
    cases hfull : s.fifo.isFull g with
    | true => simp only [hfull, ite_true, Option.some.injEq] at h; exact .inl ⟨rfl, h.symm⟩
    | false =>
        simp only [hfull, Bool.false_eq_true, ite_false, Option.some.injEq] at h
        exact .inr ⟨rfl, h.symm⟩
  · cases h

theorem pushInsertStep_cases {p : Nat} (h : pushInsertStep g s p = some t) :
    ∃ object fifoPos entry, s.producer p = .pushing object fifoPos entry ∧
      t = { s.setProducer p (.pushed fifoPos entry) with
        fifo := s.fifo.pushInsert g object fifoPos } := by
  unfold pushInsertStep at h
  split at h
  · cases h; exact ⟨_, _, _, ‹_›, rfl⟩
  · cases h

theorem pushCommitStep_cases {p : Nat} (h : pushCommitStep s p = some t) :
    ∃ fifoPos entry, s.producer p = .pushed fifoPos entry ∧
      t = { s.setProducer p .idle with
        fifo := s.fifo.pushCommit fifoPos
        log := s.log.commit entry 1 fun _ => s.fifo.buffer fifoPos } := by
  unfold pushCommitStep at h
  split at h
  · cases h; exact ⟨_, _, ‹_›, rfl⟩
  · cases h

theorem openPushStep_cases {p nObjects : Nat} (h : openPushStep g s p nObjects = some t) :
    s.producer p = .idle ∧ nObjects < 2 ^ 32 ∧
      t = { s.setProducer p (.context (ContextPush.construct g s.fifo nObjects).2 s.log.reserved 0) with
        fifo := (ContextPush.construct g s.fifo nObjects).1
        log := if (ContextPush.construct g s.fifo nObjects).2.isOverflow then s.log
          else s.log.reserve nObjects } := by
  unfold openPushStep at h
  split at h
  · split at h
    · cases h; exact ⟨‹_›, ‹_›, rfl⟩
    · cases h
  · cases h

theorem contextPushStep_cases {p : Nat} {object : α} (h : contextPushStep g s p object = some t) :
    ∃ c entry advanced, s.producer p = .context c entry advanced ∧
      t = { s.setProducer p (.context (c.push g s.fifo.tailReserved object).context entry
          (advanced + (c.push g s.fifo.tailReserved object).moved)) with
        fifo := s.fifo.write (c.push g s.fifo.tailReserved object).inserts } := by
  unfold contextPushStep at h
  split at h
  · cases h; exact ⟨_, _, _, ‹_›, rfl⟩
  · cases h

theorem contextArrayStep_cases {p : Nat} {objects : List α}
    (h : contextArrayStep g s p objects = some t) :
    ∃ c entry advanced, s.producer p = .context c entry advanced ∧
      t = { s.setProducer p (.context (c.pushArray g objects).context entry
          (advanced + (c.pushArray g objects).moved)) with
        fifo := s.fifo.write (c.pushArray g objects).inserts } := by
  unfold contextArrayStep at h
  split at h
  · split at h
    · cases h; exact ⟨_, _, _, ‹_›, rfl⟩
    · cases h
  · cases h

theorem arrayEnterStep_cases {p length : Nat} (h : arrayEnterStep g s p length = some t) :
    ∃ c entry advanced, s.producer p = .context c entry advanced ∧
      (t = s ∨ c.isOverflow = false ∧ t = s.setProducer p (.filling c entry advanced 0 length)) := by
  unfold arrayEnterStep at h
  split at h
  · rename_i c entry advanced hp
    split at h
    · split at h
      · cases h; exact ⟨c, entry, advanced, hp, .inl rfl⟩
      · cases h; exact ⟨c, entry, advanced, hp, .inr ⟨by simpa using ‹¬c.isOverflow = true›, rfl⟩⟩
    · cases h
  · cases h

-- A round of the array loop stores one object, or it ends the loop.
theorem arrayRoundStep_cases {p : Nat} {object : α} (h : arrayRoundStep g s p object = some t) :
    ∃ c entry advanced i length, s.producer p = .filling c entry advanced i length ∧
      (c.arrayContinues s.fifo.tailReserved i length = true ∧
          (c.insertOne g object).success = true ∧
          t = { s.setProducer p (.filling (c.insertOne g object).context entry
              (advanced + (c.insertOne g object).moved) (uint32 (i + 1)) length) with
            fifo := s.fifo.write (c.insertOne g object).inserts } ∨
        t = s.setProducer p (.context c entry advanced)) := by
  unfold arrayRoundStep at h
  split at h
  · rename_i c entry advanced i length hp
    refine ⟨c, entry, advanced, i, length, hp, ?_⟩
    split at h
    · rename_i hgo
      cases h
      cases hfits : g.fits c.index 1 with
      | true => exact .inl ⟨hgo, by simp [ContextPush.insertOne, hfits]⟩
      | false => right; simp [ContextPush.insertOne, hfits, write, State.setProducer]
    · cases h; exact .inr rfl
  · cases h

theorem closePushStep_cases {p : Nat} (h : closePushStep g s p = some t) :
    ∃ c entry advanced, s.producer p = .context c entry advanced ∧
      t = { s.setProducer p .idle with
        fifo := c.destruct g s.fifo
        log := if c.isOverflow then s.log
          else s.log.commit entry c.nObjects (contextContent g s.fifo c entry) } := by
  unfold closePushStep at h
  split at h
  · cases h; exact ⟨_, _, _, ‹_›, rfl⟩
  · cases h

theorem popLookStep_cases (h : popLookStep s = some t) :
    s.consumer = .idle ∧
      (s.fifo.isReady s.fifo.head = false ∧ t = s ∨
        s.fifo.isReady s.fifo.head = true ∧ t = { s with consumer := .looked s.fifo.head }) := by
  unfold popLookStep popLook at h
  split at h
  · rename_i hidle
    refine ⟨hidle, ?_⟩
    cases hr : s.fifo.isReady s.fifo.head with
    | true => simp only [hr, ite_true, Option.some.injEq] at h; exact .inr ⟨rfl, h.symm⟩
    | false =>
        simp only [hr, Bool.false_eq_true, ite_false, Option.some.injEq] at h
        exact .inl ⟨rfl, h.symm⟩
  · cases h

theorem popRemoveStep_cases {object : α} (h : popRemoveStep g s object = some t) :
    ∃ currentHead value, s.consumer = .looked currentHead ∧
      s.fifo.popRemove g object currentHead = some value ∧
      t = { s with consumer := .removed currentHead value } := by
  unfold popRemoveStep at h
  split at h
  · obtain ⟨value, hvalue, rfl⟩ := Option.map_eq_some_iff.mp h
    exact ⟨_, value, ‹_›, hvalue, rfl⟩
  · cases h

theorem popAdvanceStep_cases (h : popAdvanceStep g s = some t) :
    ∃ currentHead object, s.consumer = .removed currentHead object ∧
      t = { s with
        fifo := s.fifo.popAdvance g currentHead
        consumer := .idle
        log := s.log.deliver [object] } := by
  unfold popAdvanceStep at h
  split at h
  · cases h; exact ⟨_, _, ‹_›, rfl⟩
  · cases h

theorem openPullStep_cases (h : openPullStep g s = some t) :
    s.consumer = .idle ∧ ∃ dataLength1 dataLength2,
      s.fifo.getElementReady g = some (dataLength1, dataLength2) ∧
      t = { s with consumer := .pulling ⟨s.fifo.head, dataLength1, dataLength2⟩ [] } := by
  unfold openPullStep ContextPull.construct at h
  split at h
  · obtain ⟨c, hc, rfl⟩ := Option.map_eq_some_iff.mp h
    obtain ⟨⟨d1, d2⟩, hd, rfl⟩ := Option.map_eq_some_iff.mp hc
    exact ⟨‹_›, d1, d2, hd, rfl⟩
  · cases h

theorem pullReadStep_cases (h : pullReadStep s = some t) :
    ∃ c values, s.consumer = .pulling c values ∧
      values.length < c.dataLength1 + c.dataLength2 ∧
      t = { s with consumer := .pulling c (values ++ [s.fifo.buffer (c.slot values.length)]) } := by
  unfold pullReadStep at h
  split at h
  · split at h
    · cases h; exact ⟨_, _, ‹_›, ‹_›, rfl⟩
    · cases h
  · cases h

theorem closePullStep_cases (h : closePullStep g s = some t) :
    ∃ c values, s.consumer = .pulling c values ∧
      values.length = c.dataLength1 + c.dataLength2 ∧
      t = { s with
        fifo := ContextPull.destruct g s.fifo c
        consumer := .idle
        log := s.log.deliver values } := by
  unfold closePullStep at h
  split at h
  · split at h
    · cases h; exact ⟨_, _, ‹_›, ‹_›, rfl⟩
    · cases h
  · cases h

end Fifo

end Carbon
