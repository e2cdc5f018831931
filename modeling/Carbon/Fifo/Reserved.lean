import Carbon.Fifo.Steps

namespace Carbon

variable {α : Type} (g : Geometry)

namespace ContextPush

-- The range a context reserved, as slots.
def Owns (c : ContextPush) (slot : Nat) : Prop :=
  ∃ k < c.nObjects, slot = (c.fifoPosStart + k) % g.bufferSize

instance (c : ContextPush) (slot : Nat) : Decidable (Owns g c slot) := by
  unfold Owns; infer_instance

-- The part of the range that is left when index_ has moved `advanced` slots.
def OwnsFrom (c : ContextPush) (advanced slot : Nat) : Prop :=
  ∃ k, advanced ≤ k ∧ k < c.nObjects ∧ slot = (c.fifoPosStart + k) % g.bufferSize

-- index_ is as many slots past the start of the range as it has moved.
def Tracks (c : ContextPush) (advanced : Nat) : Prop :=
  c.isOverflow = false →
    c.fifoPosStart ≤ g.nElements ∧ c.index = (c.fifoPosStart + advanced) % g.bufferSize

-- A single object is in order if the range is not used up, or if the shared
-- tail still stands where index_ does, which the code tests.
def PushWithin (tailReserved : Nat) (c : ContextPush) (advanced : Nat) : Prop :=
  c.isOverflow = true ∨ advanced < c.nObjects ∨ c.index = tailReserved

-- An array is in order if the piece stored at index_ ends inside the range and
-- not behind slot N, and the rest, if any, fits into the range too or is
-- refused; or if the buffer refuses the first piece.
def ArrayWithin (c : ContextPush) (advanced length : Nat) : Prop :=
  let first := min length c.dataLength1
  c.isOverflow = true ∨ g.fits c.index first = false ∨
    (advanced + first ≤ c.nObjects ∧ c.index + first ≤ g.bufferSize ∧
      c.index + c.dataLength1 < 2 ^ 32 ∧
      (length ≤ c.dataLength1 ∨
        advanced + length ≤ c.nObjects ∧ length ≤ c.dataLength1 + g.bufferSize ∨
        (c.index + c.dataLength1) % g.bufferSize ≠ 0 ∨
        g.fits 0 (length - c.dataLength1) = false))

instance (tailReserved : Nat) (c : ContextPush) (advanced : Nat) :
    Decidable (PushWithin tailReserved c advanced) := by
  unfold PushWithin; infer_instance

instance (c : ContextPush) (advanced length : Nat) : Decidable (ArrayWithin g c advanced length) := by
  unfold ArrayWithin; infer_instance

variable {g} {c : ContextPush} {advanced : Nat}

theorem Tracks.index_le (h : Tracks g c advanced) (hover : c.isOverflow = false) :
    c.index ≤ g.nElements := by
  rw [(h hover).2]
  exact Nat.le_of_lt_succ (Nat.mod_lt _ (Nat.succ_pos _))

-- Slots in front of slot N + 1 that index_ has still to pass belong to the
-- range as long as its length allows.
theorem Tracks.owns_add (h : Tracks g c advanced) (hover : c.isOverflow = false) {k : Nat}
    (hk : advanced + k < c.nObjects) (hend : c.index + k < g.bufferSize) :
    OwnsFrom g c advanced (c.index + k) := by
  refine ⟨advanced + k, Nat.le_add_right _ _, hk, ?_⟩
  have hmod : (c.index + k) % g.bufferSize = (c.fifoPosStart + (advanced + k)) % g.bufferSize := by
    rw [(h hover).2, Nat.mod_add_mod, Nat.add_assoc]
  rw [← hmod, Nat.mod_eq_of_lt hend]

theorem OwnsFrom.owns {slot : Nat} (h : OwnsFrom g c advanced slot) : Owns g c slot := by
  obtain ⟨k, _, hk, hslot⟩ := h
  exact ⟨k, hk, hslot⟩

theorem Tracks.move (h : Tracks g c advanced) {index moved : Nat}
    (hindex : c.isOverflow = false → index = (c.index + moved) % g.bufferSize) :
    Tracks g { c with index := index } (advanced + moved) := by
  intro hover
  refine ⟨(h hover).1, ?_⟩
  simp only [hindex hover, (h hover).2, Nat.mod_add_mod, Nat.add_assoc]

theorem insertOne_context (object : α) :
    ∃ index, (insertOne g c object).context = { c with index := index } := by
  unfold insertOne
  split
  · exact ⟨_, rfl⟩
  · exact ⟨c.index, rfl⟩

theorem insertOne_tracks (object : α) (h : Tracks g c advanced) :
    Tracks g (insertOne g c object).context (advanced + (insertOne g c object).moved) := by
  unfold insertOne
  split
  · apply h.move
    intro hover
    have hlt := h.index_le hover
    rw [← Fifo.increment_mod, Nat.mod_eq_of_lt (by unfold Geometry.bufferSize; omega)]
  · exact h

theorem insertOne_ownsFrom (object : α) (h : Tracks g c advanced) (hover : c.isOverflow = false)
    (hlt : advanced < c.nObjects) {insert : Insert α}
    (hmem : insert ∈ (insertOne g c object).inserts) {slot : Nat} (htouch : insert.Touches slot) :
    OwnsFrom g c advanced slot := by
  unfold insertOne at hmem
  split at hmem
  · obtain rfl := List.mem_singleton.mp hmem
    simp only [Insert.Touches, List.length_singleton] at htouch
    have hslot : slot = c.index + 0 := by omega
    rw [hslot]
    exact h.owns_add hover hlt (Nat.lt_succ_of_le (h.index_le hover))
  · cases hmem

theorem push_context (tailReserved : Nat) (object : α) :
    ∃ index, (push g tailReserved c object).context = { c with index := index } := by
  unfold push
  split_ifs
  · exact ⟨c.index, rfl⟩
  · exact insertOne_context object
  · exact ⟨c.index, rfl⟩

theorem push_tracks (tailReserved : Nat) (object : α) (h : Tracks g c advanced) :
    Tracks g (push g tailReserved c object).context
      (advanced + (push g tailReserved c object).moved) := by
  unfold push
  split_ifs
  · exact h
  · exact insertOne_tracks object h
  · exact h

theorem push_ownsFrom (tailReserved : Nat) (object : α) (h : Tracks g c advanced)
    (hwithin : PushWithin tailReserved c advanced) {insert : Insert α}
    (hmem : insert ∈ (push g tailReserved c object).inserts) {slot : Nat}
    (htouch : insert.Touches slot) : OwnsFrom g c advanced slot := by
  unfold push at hmem
  split_ifs at hmem with hover htail
  · cases hmem
  · rcases hwithin with hw | hw | hw
    · exact absurd hw hover
    · exact insertOne_ownsFrom object h (by simpa using hover) hw hmem htouch
    · exact absurd hw htail
  · cases hmem

-- The packed push_array does nothing if the context overflowed or the buffer
-- refuses its first piece.
theorem pushArray_refused (objects : List α)
    (h : c.isOverflow = true ∨ g.fits c.index (min objects.length c.dataLength1) = false) :
    pushArray g c objects = ⟨false, c, 0, []⟩ := by
  unfold pushArray
  rcases h with hover | hfits
  · simp only [hover, ite_true]
  · by_cases hle : objects.length ≤ c.dataLength1
    · rw [Nat.min_eq_left hle] at hfits
      simp only [hle, hfits, ite_true, Bool.false_eq_true, ite_false, ite_self]
    · rw [Nat.min_eq_right (by omega)] at hfits
      simp only [hle, hfits, Bool.false_eq_true, ite_false, ite_self]

-- Otherwise it is an insert of the first piece, an advance of index_ by
-- data_length1_, and perhaps a second insert at slot 0.
theorem pushArray_cases (objects : List α) (hover : c.isOverflow = false)
    (hfits : g.fits c.index (min objects.length c.dataLength1) = true) :
    ∃ ok index second,
      Fifo.incrementBy g c.index c.dataLength1 = (ok, index) ∧
      (pushArray g c objects).context = { c with index := index } ∧
      (pushArray g c objects).moved = (if ok then c.dataLength1 else 0) ∧
      (pushArray g c objects).inserts =
        ⟨c.index, objects.take (min objects.length c.dataLength1)⟩ :: second ∧
      (second = [] ∨ c.dataLength1 < objects.length ∧ ok = true ∧ index = 0 ∧
        g.fits 0 (objects.length - c.dataLength1) = true ∧
        second = [⟨0, objects.drop c.dataLength1⟩]) := by
  cases hinc : Fifo.incrementBy g c.index c.dataLength1 with
  | mk ok index =>
      refine ⟨ok, index, (pushArray g c objects).inserts.tail, rfl, ?_⟩
      unfold pushArray
      rw [hinc]
      by_cases hle : objects.length ≤ c.dataLength1
      · rw [Nat.min_eq_left hle] at hfits ⊢
        simp [hover, hle, hfits]
      · rw [Nat.min_eq_right (by omega)] at hfits ⊢
        have hlt : c.dataLength1 < objects.length := Nat.lt_of_not_le hle
        cases ok with
        | false => simp [hover, hle, hfits]
        | true =>
            by_cases h0 : index = 0
            · cases hrest : g.fits index (objects.length - c.dataLength1) with
              | true => simp [hover, hle, hfits, h0, h0 ▸ hrest, hlt]
              | false => simp [hover, hle, hfits, h0, h0 ▸ hrest]
            · simp [hover, hle, hfits, h0]

theorem pushArray_context (objects : List α) :
    ∃ index, (pushArray g c objects).context = { c with index := index } := by
  by_cases h : c.isOverflow = true ∨ g.fits c.index (min objects.length c.dataLength1) = false
  · rw [pushArray_refused objects h]
    exact ⟨c.index, rfl⟩
  · simp only [not_or, Bool.not_eq_true, Bool.not_eq_false] at h
    obtain ⟨_, index, _, _, hc, _⟩ := pushArray_cases objects h.1 h.2
    exact ⟨index, hc⟩

theorem pushArray_tracks (objects : List α) (h : Tracks g c advanced)
    (hwithin : ArrayWithin g c advanced objects.length) :
    Tracks g (pushArray g c objects).context (advanced + (pushArray g c objects).moved) := by
  by_cases hr : c.isOverflow = true ∨ g.fits c.index (min objects.length c.dataLength1) = false
  · rw [pushArray_refused objects hr]
    exact h
  · have hw := hwithin
    simp only [ArrayWithin, ← or_assoc] at hw
    obtain ⟨_, _, hlt, _⟩ := hw.resolve_left (by simpa [or_assoc] using hr)
    simp only [not_or, Bool.not_eq_true, Bool.not_eq_false] at hr
    obtain ⟨ok, index, _, hinc, hc, hm, _⟩ := pushArray_cases objects hr.1 hr.2
    rw [hc, hm]
    apply h.move
    intro hover
    have hidx : c.index % g.bufferSize = c.index :=
      Nat.mod_eq_of_lt (Nat.lt_succ_of_le (h.index_le hover))
    by_cases hn : c.dataLength1 ≤ g.nElements
    · have := Fifo.incrementBy_mod g c.index hn (by rwa [hidx])
      rw [hidx, hinc] at this
      cases this
      rfl
    · rw [Fifo.incrementBy, if_pos (by omega)] at hinc
      cases hinc
      simpa using hidx.symm

theorem pushArray_ownsFrom (objects : List α) (h : Tracks g c advanced)
    (hwithin : ArrayWithin g c advanced objects.length) {insert : Insert α}
    (hmem : insert ∈ (pushArray g c objects).inserts) {slot : Nat} (htouch : insert.Touches slot) :
    OwnsFrom g c advanced slot := by
  by_cases hr : c.isOverflow = true ∨ g.fits c.index (min objects.length c.dataLength1) = false
  · rw [pushArray_refused objects hr] at hmem
    cases hmem
  · have hw := hwithin
    simp only [ArrayWithin, ← or_assoc] at hw
    obtain ⟨hfirst, hend, hlt, hrest⟩ := hw.resolve_left (by simpa [or_assoc] using hr)
    simp only [not_or, Bool.not_eq_true, Bool.not_eq_false] at hr
    obtain ⟨ok, index, second, hinc, _, _, hins, hsecond⟩ := pushArray_cases objects hr.1 hr.2
    rw [hins] at hmem
    rcases List.mem_cons.mp hmem with rfl | hmem
    · -- the piece at index_
      simp only [Insert.Touches, List.length_take] at htouch
      obtain ⟨k, rfl⟩ := Nat.exists_eq_add_of_le htouch.1
      exact h.owns_add hr.1 (by omega) (by omega)
    · -- the piece at slot 0
      rcases hsecond with rfl | ⟨hlong, rfl, rfl, hfits, rfl⟩
      · cases hmem
      · obtain rfl := List.mem_singleton.mp hmem
        simp only [Insert.Touches, List.length_drop] at htouch
        have hidx : c.index % g.bufferSize = c.index :=
          Nat.mod_eq_of_lt (Nat.lt_succ_of_le (h.index_le hr.1))
        have hn : c.dataLength1 ≤ g.nElements := by
          by_contra hn
          rw [Fifo.incrementBy, if_pos (by omega)] at hinc
          cases hinc
        have hwrap := Fifo.incrementBy_mod g c.index hn (by rwa [hidx])
        rw [hidx, hinc, Prod.mk.injEq] at hwrap
        have htotal : advanced + objects.length ≤ c.nObjects ∧
            objects.length ≤ c.dataLength1 + g.bufferSize := by
          rcases hrest with ((hr1 | hr1) | hr1) | hr1
          · omega
          · exact hr1
          · exact absurd hwrap.2.symm hr1
          · simp [hr1] at hfits
        refine ⟨advanced + c.dataLength1 + slot, by omega, by omega, ?_⟩
        have hpos : (c.fifoPosStart + advanced + c.dataLength1) % g.bufferSize = 0 := by
          rw [hwrap.2, (h hr.1).2, Nat.mod_add_mod]
        rw [← Nat.add_assoc, ← Nat.add_assoc, Nat.add_mod, hpos, Nat.zero_add, Nat.mod_mod]
        exact (Nat.mod_eq_of_lt (by omega)).symm

end ContextPush

namespace Fifo

-- The condition on the calls made for contexts. A context is opened for at least
-- one slot and at most N, and no call made through it asks for more than is left
-- of its range, unless the code refuses them.
def OpenWithin (g : Geometry) (f : Fifo α) (nObjects : Nat) : Prop :=
  f.isFullBy g nObjects = true ∨ 0 < nObjects ∧ nObjects ≤ g.nElements

def Producer.PushWithin (tailReserved : Nat) : Producer α → Prop
  | .context c _ advanced => c.PushWithin tailReserved advanced
  | _ => True

def Producer.ArrayWithin (g : Geometry) (length : Nat) : Producer α → Prop
  | .context c _ advanced => c.ArrayWithin g advanced length
  | _ => True

def Producer.RoundWithin (tailReserved : Nat) : Producer α → Prop
  | .filling c _ advanced i length =>
      advanced < c.nObjects ∨ c.arrayContinues tailReserved i length = false
  | _ => True

def Within (g : Geometry) (s : State α) : Event α → Prop
  | .openPush _ nObjects => s.fifo.OpenWithin g nObjects
  | .contextPush p _ => (s.producer p).PushWithin s.fifo.tailReserved
  | .contextArray p objects => (s.producer p).ArrayWithin g objects.length
  | .arrayRound p _ => (s.producer p).RoundWithin s.fifo.tailReserved
  | _ => True

instance (tailReserved : Nat) : DecidablePred (Producer.PushWithin (α := α) tailReserved)
  | .context c _ advanced => inferInstanceAs (Decidable (c.PushWithin tailReserved advanced))
  | .idle | .pushing _ _ _ | .pushed _ _ | .filling _ _ _ _ _ => isTrue trivial

instance (length : Nat) : DecidablePred (Producer.ArrayWithin (α := α) g length)
  | .context c _ advanced => inferInstanceAs (Decidable (c.ArrayWithin g advanced length))
  | .idle | .pushing _ _ _ | .pushed _ _ | .filling _ _ _ _ _ => isTrue trivial

instance (tailReserved : Nat) : DecidablePred (Producer.RoundWithin (α := α) tailReserved)
  | .filling c _ advanced i length => inferInstanceAs
      (Decidable (advanced < c.nObjects ∨ c.arrayContinues tailReserved i length = false))
  | .idle | .pushing _ _ _ | .pushed _ _ | .context _ _ _ => isTrue trivial

instance (f : Fifo α) (nObjects : Nat) : Decidable (f.OpenWithin g nObjects) := by
  unfold OpenWithin; infer_instance

instance (s : State α) : DecidablePred (Within g s)
  | .openPush _ nObjects => inferInstanceAs (Decidable (s.fifo.OpenWithin g nObjects))
  | .contextPush p _ => inferInstanceAs (Decidable ((s.producer p).PushWithin s.fifo.tailReserved))
  | .contextArray p objects => inferInstanceAs (Decidable ((s.producer p).ArrayWithin g objects.length))
  | .arrayRound p _ => inferInstanceAs (Decidable ((s.producer p).RoundWithin s.fifo.tailReserved))
  | .pushReserve _ _ | .pushInsert _ | .pushCommit _ | .arrayEnter _ _ | .closePush _
  | .popLook | .popRemove _ | .popAdvance | .openPull | .pullRead | .closePull => isTrue trivial

-- The context an event writes through, how far its index_ has moved before, and
-- the inserts the event makes.
def contextWrites (s : State α) : Event α → Option (ContextPush × Nat × List (Insert α))
  | .contextPush p object =>
      match s.producer p with
      | .context c _ advanced => some (c, advanced, (c.push g s.fifo.tailReserved object).inserts)
      | _ => none
  | .contextArray p objects =>
      match s.producer p with
      | .context c _ advanced => some (c, advanced, (c.pushArray g objects).inserts)
      | _ => none
  | .arrayRound p object =>
      match s.producer p with
      | .filling c _ advanced i length =>
          if c.arrayContinues s.fifo.tailReserved i length then
            some (c, advanced, (c.insertOne g object).inserts)
          else none
      | _ => none
  | _ => none

def Producer.Tracks (g : Geometry) : Producer α → Prop
  | .context c _ advanced => c.Tracks g advanced
  | .filling c _ advanced _ _ => c.isOverflow = false ∧ c.Tracks g advanced
  | _ => True

structure Tracked (s : State α) : Prop where
  tail_le : s.fifo.tailReserved ≤ g.nElements
  producer : ∀ p, (s.producer p).Tracks g

theorem forall_update {P : Producer α → Prop} {producer : Nat → Producer α} {p : Nat}
    {x : Producer α} (h : ∀ q, P (producer q)) (hx : P x) (q : Nat) :
    P (Function.update producer p x q) := by
  by_cases hq : q = p
  · subst hq; simpa using hx
  · simpa [hq] using h q

theorem construct_tail_le (f : Fifo α) (nObjects : Nat) (htail : f.tailReserved ≤ g.nElements) :
    (ContextPush.construct g f nObjects).1.tailReserved ≤ g.nElements := by
  unfold ContextPush.construct
  split
  · exact htail
  · exact increment_le g _

theorem construct_tracks (f : Fifo α) (nObjects : Nat) (htail : f.tailReserved ≤ g.nElements) :
    (ContextPush.construct g f nObjects).2.Tracks g 0 := by
  unfold ContextPush.construct
  split
  · intro hover; cases hover
  · intro _
    exact ⟨htail, (Nat.mod_eq_of_lt (Nat.lt_succ_of_le htail)).symm⟩

-- The commit touches the bitmap only.
theorem destruct_frame (f : Fifo α) (c : ContextPush) :
    (c.destruct g f).head = f.head ∧ (c.destruct g f).tailReserved = f.tailReserved ∧
      (c.destruct g f).buffer = f.buffer := by
  unfold ContextPush.destruct
  simp only
  split_ifs <;> exact ⟨rfl, rfl, rfl⟩

theorem pullDestruct_tail (f : Fifo α) (c : ContextPull) :
    (ContextPull.destruct g f c).tailReserved = f.tailReserved := by
  unfold ContextPull.destruct
  induction c.dataLength1 + c.dataLength2 with
  | zero => rfl
  | succ count ih => rw [Function.iterate_succ_apply']; exact ih

theorem pushInsert_tail (f : Fifo α) (object : α) (fifoPos : Nat) :
    (f.pushInsert g object fifoPos).tailReserved = f.tailReserved := by
  unfold pushInsert
  split <;> rfl

theorem tracked_start (buffer : Nat → α) : Tracked g (start buffer) where
  tail_le := Nat.zero_le _
  producer := fun _ => trivial

variable {g}

theorem Tracked.of_context {s : State α} (h : Tracked g s) {p : Nat} {c : ContextPush}
    {entry advanced : Nat} (hp : s.producer p = .context c entry advanced) :
    c.Tracks g advanced := by
  have := h.producer p
  rwa [hp] at this

theorem Tracked.of_filling {s : State α} (h : Tracked g s) {p : Nat} {c : ContextPush}
    {entry advanced i length : Nat} (hp : s.producer p = .filling c entry advanced i length) :
    c.isOverflow = false ∧ c.Tracks g advanced := by
  have := h.producer p
  rwa [hp] at this

theorem Tracked.step {s t : State α} {e : Event α} (h : Tracked g s) (hok : Within g s e)
    (hstep : step g s e = some t) : Tracked g t := by
  cases e with
  | pushReserve p object =>
      obtain ⟨_, ⟨_, rfl⟩ | ⟨_, rfl⟩⟩ := pushReserveStep_cases hstep
      · exact h
      · exact ⟨increment_le g _, forall_update h.producer trivial⟩
  | pushInsert p =>
      obtain ⟨object, fifoPos, entry, _, rfl⟩ := pushInsertStep_cases hstep
      refine ⟨?_, forall_update h.producer trivial⟩
      exact (pushInsert_tail g s.fifo object fifoPos).symm ▸ h.tail_le
  | pushCommit p =>
      obtain ⟨fifoPos, entry, _, rfl⟩ := pushCommitStep_cases hstep
      exact ⟨h.tail_le, forall_update h.producer trivial⟩
  | openPush p nObjects =>
      obtain ⟨_, _, rfl⟩ := openPushStep_cases hstep
      exact ⟨construct_tail_le g s.fifo nObjects h.tail_le,
        forall_update h.producer (construct_tracks g s.fifo nObjects h.tail_le)⟩
  | contextPush p object =>
      obtain ⟨c, entry, advanced, hp, rfl⟩ := contextPushStep_cases hstep
      exact ⟨h.tail_le, forall_update h.producer
        (ContextPush.push_tracks s.fifo.tailReserved object (h.of_context hp))⟩
  | contextArray p objects =>
      obtain ⟨c, entry, advanced, hp, rfl⟩ := contextArrayStep_cases hstep
      have hw : c.ArrayWithin g advanced objects.length := by
        simpa [Within, hp, Producer.ArrayWithin] using hok
      exact ⟨h.tail_le, forall_update h.producer
        (ContextPush.pushArray_tracks objects (h.of_context hp) hw)⟩
  | arrayEnter p length =>
      obtain ⟨c, entry, advanced, hp, rfl | ⟨hover, rfl⟩⟩ := arrayEnterStep_cases hstep
      · exact h
      · exact ⟨h.tail_le, forall_update h.producer ⟨hover, h.of_context hp⟩⟩
  | arrayRound p object =>
      obtain ⟨c, entry, advanced, i, length, hp, ⟨_, _, rfl⟩ | rfl⟩ := arrayRoundStep_cases hstep
      · obtain ⟨hover, htrack⟩ := h.of_filling hp
        have hsame : ((c.insertOne g object).context).isOverflow = false := by
          obtain ⟨index, hc⟩ := ContextPush.insertOne_context (g := g) (c := c) object
          rw [hc]; exact hover
        exact ⟨h.tail_le, forall_update h.producer
          ⟨hsame, ContextPush.insertOne_tracks object htrack⟩⟩
      · exact ⟨h.tail_le, forall_update h.producer (h.of_filling hp).2⟩
  | closePush p =>
      obtain ⟨c, entry, advanced, _, rfl⟩ := closePushStep_cases hstep
      refine ⟨?_, forall_update h.producer trivial⟩
      exact (destruct_frame g s.fifo c).2.1.symm ▸ h.tail_le
  | popLook =>
      obtain ⟨_, ⟨_, rfl⟩ | ⟨_, rfl⟩⟩ := popLookStep_cases hstep
      · exact h
      · exact ⟨h.tail_le, h.producer⟩
  | popRemove object =>
      obtain ⟨currentHead, value, _, _, rfl⟩ := popRemoveStep_cases hstep
      exact ⟨h.tail_le, h.producer⟩
  | popAdvance =>
      obtain ⟨currentHead, object, _, rfl⟩ := popAdvanceStep_cases hstep
      exact ⟨h.tail_le, h.producer⟩
  | openPull =>
      obtain ⟨_, d1, d2, _, rfl⟩ := openPullStep_cases hstep
      exact ⟨h.tail_le, h.producer⟩
  | pullRead =>
      obtain ⟨c, values, _, _, rfl⟩ := pullReadStep_cases hstep
      exact ⟨h.tail_le, h.producer⟩
  | closePull =>
      obtain ⟨c, values, _, _, rfl⟩ := closePullStep_cases hstep
      exact ⟨(pullDestruct_tail g s.fifo c).symm ▸ h.tail_le, h.producer⟩

theorem tracked_of_reachable {s : State α} (hs : (system g).ReachableBy (Within g) s) :
    Tracked g s :=
  hs.invariant (by rintro s ⟨buffer, rfl⟩; exact tracked_start g buffer)
    (fun _ _ _ h hok hstep => h.step hok hstep)

-- The inserts of one event lie in what is left of the range of the context it
-- writes through.
theorem Tracked.writes_left {s : State α} {e : Event α} (h : Tracked g s) (hok : Within g s e)
    {c : ContextPush} {advanced : Nat} {inserts : List (Insert α)}
    (hw : contextWrites g s e = some (c, advanced, inserts)) {insert : Insert α}
    (hmem : insert ∈ inserts) {slot : Nat} (htouch : insert.Touches slot) :
    c.OwnsFrom g advanced slot := by
  unfold contextWrites at hw
  split at hw
  · split at hw
    · rename_i hp
      cases hw
      exact ContextPush.push_ownsFrom s.fifo.tailReserved _ (h.of_context hp)
        (by simpa [Within, hp, Producer.PushWithin] using hok) hmem htouch
    · cases hw
  · split at hw
    · rename_i hp
      cases hw
      exact ContextPush.pushArray_ownsFrom _ (h.of_context hp)
        (by simpa [Within, hp, Producer.ArrayWithin] using hok) hmem htouch
    · cases hw
  · split at hw
    · rename_i p object _ c' entry advanced i length hp
      split at hw
      · rename_i hgo
        cases hw
        obtain ⟨hover, htrack⟩ := h.of_filling hp
        have hlt : advanced < c.nObjects ∨ c.arrayContinues s.fifo.tailReserved i length = false := by
          simpa only [Within, hp, Producer.RoundWithin] using hok
        rw [hgo] at hlt
        exact ContextPush.insertOne_ownsFrom _ htrack hover (hlt.resolve_right (by simp)) hmem htouch
      · cases hw
    · cases hw
  · cases hw

-- A step that writes through a context makes just those inserts.
theorem contextWrites_buffer {s t : State α} {e : Event α} {c : ContextPush} {advanced : Nat}
    {inserts : List (Insert α)} (hw : contextWrites g s e = some (c, advanced, inserts))
    (hstep : step g s e = some t) : t.fifo.buffer = (s.fifo.write inserts).buffer := by
  unfold contextWrites at hw
  split at hw
  · obtain ⟨c', entry, advanced, hp, rfl⟩ := contextPushStep_cases hstep
    simp only [hp, Option.some.injEq, Prod.mk.injEq] at hw
    obtain ⟨rfl, rfl, rfl⟩ := hw
    rfl
  · obtain ⟨c', entry, advanced, hp, rfl⟩ := contextArrayStep_cases hstep
    simp only [hp, Option.some.injEq, Prod.mk.injEq] at hw
    obtain ⟨rfl, rfl, rfl⟩ := hw
    rfl
  · split at hw
    · rename_i p object c' entry advanced i length hp
      split at hw
      · rename_i hgo
        cases hw
        simp only [step, arrayRoundStep, hp, hgo, ite_true, Option.some.injEq] at hstep
        rw [← hstep]
      · cases hw
    · cases hw
  · cases hw

end Fifo

end Carbon
