import Carbon.Fifo.Reserved

namespace Carbon

namespace ContextPush

variable {α : Type} (g : Geometry)

-- Where the commit of a range that wraps stops; 32 bits need not hold the sum.
def lastMarked (start nObjects : Nat) : Nat :=
  if start + (nObjects - 1) < 2 ^ 32 then start + (nObjects - 1) - g.bufferSize
  else start + (nObjects - 1) - 2 ^ 32

-- The commit adds the slots of the range to the ready slots and no other.
def MarksExactly (f : Fifo α) (c : ContextPush) : Prop :=
  ∀ slot ≤ g.nElements,
    (destruct g f c).isReady slot = true ↔ c.Owns g slot ∨ f.isReady slot = true

-- A range that wraps must end in an earlier byte than it starts, and the slots
-- that the masks take in too many or leave out must be ready before.
def MarksWhen (f : Fifo α) (start nObjects : Nat) : Prop :=
  start + nObjects ≤ g.bufferSize ∨
    lastMarked g start nObjects / 8 < start / 8 ∧
      (∀ slot < start, slot / 8 = g.nElements / 8 → start + nObjects ≤ slot + g.bufferSize →
        f.isReady slot = true) ∧
      (∀ slot, lastMarked g start nObjects < slot → slot + g.bufferSize < start + nObjects →
        slot / 8 ≠ g.nElements / 8 → f.isReady slot = true) ∨
    lastMarked g start nObjects / 8 = start / 8 ∧
      ∀ slot ≤ g.nElements, start ≤ slot ∨ slot + g.bufferSize < start + nObjects →
        f.isReady slot = true

variable {g}

theorem isFullBy_of_fits {f : Fifo α} {nObjects : Nat}
    (hfits : (construct g f nObjects).2.isOverflow = false) : f.isFullBy g nObjects = false :=
  (construct_isOverflow f nObjects).symm.trans hfits

theorem rangeEnd_eq {start nObjects : Nat} (hstart : start ≤ g.nElements) (hpos : 0 < nObjects)
    (hle : nObjects ≤ g.nElements) :
    (Fifo.incrementBy g start (uint32Sub nObjects 1)).2 =
      if start + nObjects ≤ g.bufferSize then start + (nObjects - 1)
      else lastMarked g start nObjects := by
  have hN := g.bufferSize_lt
  have hlast : uint32Sub nObjects 1 = nObjects - 1 :=
    uint32Sub_of_le (by unfold Geometry.bufferSize at hN; omega) hpos
  rw [hlast]
  unfold Fifo.incrementBy lastMarked uint32
  rw [if_neg (by omega)]
  by_cases hsum : start + (nObjects - 1) < 2 ^ 32
  · rw [Nat.mod_eq_of_lt hsum, if_pos hsum]
    split_ifs <;> omega
  · have hmod : (start + (nObjects - 1)) % 2 ^ 32 = start + (nObjects - 1) - 2 ^ 32 := by
      unfold Geometry.bufferSize at hN
      omega
    unfold Geometry.bufferSize at *
    rw [hmod, if_neg hsum, if_pos (by omega), if_neg (by omega)]

theorem owns_iff {c : ContextPush} (hstart : c.fifoPosStart ≤ g.nElements)
    (hle : c.nObjects ≤ g.bufferSize) {slot : Nat} (hslot : slot ≤ g.nElements) :
    c.Owns g slot ↔ c.fifoPosStart ≤ slot ∧ slot < c.fifoPosStart + c.nObjects ∨
      slot + g.bufferSize < c.fifoPosStart + c.nObjects := by
  unfold Owns
  unfold Geometry.bufferSize at *
  constructor
  · rintro ⟨k, hk, rfl⟩
    have hmod := Cyclic.add_mod_eq c.fifoPosStart k (g.nElements + 1) (by omega) (by omega)
    rw [Nat.mod_eq_of_lt (Nat.lt_succ_of_le hstart)] at hmod
    split_ifs at hmod <;> omega
  · rintro (⟨hge, hlt⟩ | hlt)
    · refine ⟨slot - c.fifoPosStart, by omega, ?_⟩
      rw [Nat.add_sub_of_le hge, Nat.mod_eq_of_lt (by omega)]
    · refine ⟨slot + (g.nElements + 1) - c.fifoPosStart, by omega, ?_⟩
      rw [Nat.add_sub_of_le (by omega), Nat.add_mod_right, Nat.mod_eq_of_lt (by omega)]

-- Only the slots that are not ready before the commit can go wrong.
theorem marksExactly_iff {f : Fifo α} {c : ContextPush} (hover : c.isOverflow = false)
    (hstart : c.fifoPosStart ≤ g.nElements) (hend : c.fifoPosEnd ≤ g.nElements)
    (hle : c.nObjects ≤ g.bufferSize) :
    MarksExactly g f c ↔ ∀ slot ≤ g.nElements, f.isReady slot = false →
      (Marked g c.fifoPosStart c.fifoPosEnd slot ↔
        c.fifoPosStart ≤ slot ∧ slot < c.fifoPosStart + c.nObjects ∨
          slot + g.bufferSize < c.fifoPosStart + c.nObjects) := by
  unfold MarksExactly
  refine forall₂_congr fun slot hslot => ?_
  rw [destruct_isReady_iff g f c hover hstart hend (fun _ => hslot), owns_iff hstart hle hslot]
  cases f.isReady slot with
  | true => simp
  | false => simp [hslot]

-- The masks of a range that wraps to an earlier byte take in the whole last byte
-- and leave out the slots between `last` and the end of the range.
theorem wrapped_masks_iff {f : Fifo α} {start last nObjects : Nat} (hstart : start ≤ g.nElements)
    (hstop : last + g.bufferSize < start + nObjects) (hle : nObjects ≤ g.nElements) :
    (∀ slot ≤ g.nElements, f.isReady slot = false →
      (slot / 8 = g.nElements / 8 ∨ start ≤ slot ∨ slot ≤ last ↔
        start ≤ slot ∧ slot < start + nObjects ∨ slot + g.bufferSize < start + nObjects)) ↔
      (∀ slot < start, slot / 8 = g.nElements / 8 → start + nObjects ≤ slot + g.bufferSize →
        f.isReady slot = true) ∧
      ∀ slot, last < slot → slot + g.bufferSize < start + nObjects → slot / 8 ≠ g.nElements / 8 →
        f.isReady slot = true := by
  unfold Geometry.bufferSize at *
  constructor
  · intro h
    refine ⟨fun slot hlt hlast hout => ?_, fun slot hgt hin hlast => ?_⟩
    · by_contra hready
      have hslot := h slot (by omega) (Bool.eq_false_of_not_eq_true hready)
      omega
    · by_contra hready
      have hslot := h slot (by omega) (Bool.eq_false_of_not_eq_true hready)
      omega
  · rintro ⟨hfront, hrest⟩ slot hslot hready
    have hfront := hfront slot
    have hrest := hrest slot
    rw [hready] at hfront hrest
    simp only [Bool.false_eq_true] at hfront hrest
    by_cases hlast : slot / 8 = g.nElements / 8
    · by_cases hlt : slot < start
      · have hin := Nat.lt_of_not_le (hfront hlt hlast)
        omega
      · omega
    · by_cases hgt : last < slot
      · have hout : ¬slot + (g.nElements + 1) < start + nObjects := fun hin => hrest hgt hin hlast
        omega
      · omega

theorem marksExactly_iff_when {opened : Fifo α} (closed : Fifo α) {nObjects : Nat}
    (htail : opened.tailReserved ≤ g.nElements) (hpos : 0 < nObjects) (hle : nObjects ≤ g.nElements)
    (hfits : opened.isFullBy g nObjects = false) :
    MarksExactly g closed (construct g opened nObjects).2 ↔
      MarksWhen g closed opened.tailReserved nObjects := by
  obtain ⟨hover, hn, hstart, hend, _⟩ := construct_reserves hfits
  have hendle : (construct g opened nObjects).2.fifoPosEnd ≤ g.nElements := by
    rw [hend]; exact Fifo.incrementBy_le g htail
  rw [marksExactly_iff hover (hstart ▸ htail) hendle (by rw [hn]; exact Nat.le_succ_of_le hle)]
  rw [hend, rangeEnd_eq htail hpos hle] at hendle ⊢
  rw [hstart, hn]
  have hN := g.bufferSize_lt
  generalize opened.tailReserved = start at *
  unfold MarksWhen
  by_cases hwrap : start + nObjects ≤ g.bufferSize
  · -- the masks of a range that does not wrap are right
    simp only [hwrap, if_true, true_or, iff_true]
    intro slot hslot _
    unfold Marked Geometry.bufferSize at *
    rw [if_pos (by omega)]
    omega
  · simp only [hwrap, if_false, false_or] at hendle ⊢
    have hbefore : lastMarked g start nObjects < start := by
      unfold lastMarked Geometry.bufferSize at *
      split <;> omega
    have hnot : ¬start ≤ lastMarked g start nObjects := by omega
    unfold Marked
    simp only [hnot, if_false]
    have hstop : lastMarked g start nObjects + g.bufferSize < start + nObjects := by
      unfold lastMarked Geometry.bufferSize at *
      split <;> omega
    generalize lastMarked g start nObjects = last at *
    by_cases hbyte : start / 8 = last / 8
    · simp only [hbyte, if_true, lt_irrefl, false_and, false_or, true_and, false_iff]
      unfold Geometry.bufferSize at *
      refine forall₂_congr fun slot hslot => ?_
      cases closed.isReady slot with
      | true => simp
      | false =>
          simp only [forall_const, Bool.false_eq_true, imp_false]
          omega
    · have hearlier : last / 8 < start / 8 := by omega
      simp only [hbyte, if_false, hearlier, true_and, Ne.symm hbyte, false_and, or_false]
      exact wrapped_masks_iff htail hstop hle

-- Whatever the bitmap holds when the context is closed, the commit is exact
-- just in these cases.
theorem commit_marks_exactly_iff (opened closed : Fifo α) {nObjects : Nat}
    (htail : opened.tailReserved ≤ g.nElements) (hpos : 0 < nObjects) (hle : nObjects ≤ g.nElements)
    (hfits : (construct g opened nObjects).2.isOverflow = false) :
    MarksExactly g closed (construct g opened nObjects).2 ↔
      MarksWhen g closed opened.tailReserved nObjects :=
  marksExactly_iff_when closed htail hpos hle (isFullBy_of_fits hfits)

-- Slots 14, 15, 0, 1 of 16 share no byte with a slot that is not theirs but the
-- last byte, whose other slots become ready.
theorem commit_marks_free_slots :
    ¬∀ (g : Geometry) (opened closed : Fifo Unit) (nObjects : Nat), opened.tailReserved ≤ g.nElements →
      0 < nObjects → nObjects ≤ g.nElements → (construct g opened nObjects).2.isOverflow = false →
      MarksExactly g closed (construct g opened nObjects).2 := by
  intro h
  have hmarks := h (.ofBytes 15 0 (by decide)) ⟨14, 14, fun _ => 0, fun _ => ()⟩
    ⟨2, 14, fun _ => 0, fun _ => ()⟩ 4 (by decide) (by decide) (by decide) (by decide) 8 (by decide)
  revert hmarks
  decide

theorem commit_marks_exactly_in_first_byte :
    MarksExactly (.ofBytes 15 0 (by decide)) ⟨5, 2, fun _ => 1, fun _ => ()⟩
      (construct (.ofBytes 15 0 (by decide)) ⟨2, 2, fun _ => 0, fun _ => ()⟩ 3).2 :=
  (commit_marks_exactly_iff ⟨2, 2, fun _ => 0, fun _ => ()⟩ ⟨5, 2, fun _ => 1, fun _ => ()⟩ (by decide)
    (by decide) (by decide) (by decide)).mpr (.inl (by decide))

end ContextPush

namespace Fifo

variable {α : Type} (g : Geometry)

-- The entries from the head up to the reserved tail.
def used (f : Fifo α) : Nat :=
  if f.head ≤ f.tailReserved then f.tailReserved - f.head
  else g.bufferSize - (f.head - f.tailReserved)

-- A context opened and closed again.
def openClose (f : Fifo α) (nObjects : Nat) : Fifo α :=
  ContextPush.destruct g (ContextPush.construct g f nObjects).1 (ContextPush.construct g f nObjects).2

-- The next nObjects slots were free, are behind the reserved tail no more, and
-- are the ones that became ready.
structure Took (f t : Fifo α) (nObjects : Nat) : Prop where
  room : f.used g + nObjects ≤ g.nElements
  head : t.head = f.head
  tail : t.tailReserved = (f.tailReserved + nObjects) % g.bufferSize
  ready : ∀ slot ≤ g.nElements, t.isReady slot = true ↔
    (∃ k < nObjects, slot = (f.tailReserved + k) % g.bufferSize) ∨ f.isReady slot = true

def AllOrNothing (f : Fifo α) (nObjects : Nat) : Prop :=
  (ContextPush.construct g f nObjects).2.isOverflow = true ∧
      (f.openClose g nObjects).head = f.head ∧
      (f.openClose g nObjects).tailReserved = f.tailReserved ∧
      (f.openClose g nObjects).tailReady = f.tailReady ∨
    (ContextPush.construct g f nObjects).2.isOverflow = false ∧
      Took g f (f.openClose g nObjects) nObjects

-- The last case is a FIFO of one slot, whose only bit is set although the FIFO
-- counts as empty.
def AllOrNothingWhen (f : Fifo α) (nObjects : Nat) : Prop :=
  f.isFullBy g nObjects = true ∨
    0 < nObjects ∧ nObjects ≤ g.nElements ∧ f.tailReserved + nObjects ≤ 2 ^ 32 ∧
      ContextPush.MarksWhen g f f.tailReserved nObjects ∨
    nObjects = 0 ∧ g.nElements = 0 ∧ f.isReady 0 = true

variable {g} {f : Fifo α} {nObjects : Nat}

-- With low entries consumed and high reserved.
theorem used_eq {low high : Nat} (hle : low ≤ high) (hn : high ≤ low + g.nElements)
    (hhead : f.head = low % g.bufferSize) (htail : f.tailReserved = high % g.bufferSize) :
    f.used g = high - low := by
  have hlow : low % (g.nElements + 1) < g.nElements + 1 := Nat.mod_lt _ (Nat.succ_pos _)
  unfold used Geometry.bufferSize at *
  rw [hhead, htail]
  rcases Cyclic.distance_cases hle hn with hahead | hround
  · rw [if_pos (by omega)]
    omega
  · rw [if_neg (by omega)]
    omega

theorem used_add_le (htail : f.tailReserved ≤ g.nElements) (hle : nObjects ≤ g.nElements)
    (hfits : f.isFullBy g nObjects = false) :
    f.used g + nObjects ≤ g.nElements := by
  unfold isFullBy at hfits
  rw [if_neg (by omega)] at hfits
  unfold used Geometry.bufferSize at *
  split_ifs at hfits ⊢ <;> simp only [decide_eq_false_iff_not] at hfits <;> omega

-- The tail moves by the count as long as 32 bits hold its sum with the count.
theorem construct_tail_eq_iff (htail : f.tailReserved ≤ g.nElements) (hpos : 0 < nObjects)
    (hle : nObjects ≤ g.nElements) (hfits : f.isFullBy g nObjects = false) :
    (ContextPush.construct g f nObjects).1.tailReserved = (f.tailReserved + nObjects) % g.bufferSize ↔
      f.tailReserved + nObjects ≤ 2 ^ 32 := by
  have hN := g.bufferSize_lt
  obtain ⟨_, _, _, _, hcons⟩ := ContextPush.construct_reserves hfits
  have hmod := Cyclic.add_mod_eq f.tailReserved nObjects g.bufferSize (Nat.succ_pos _)
    (Nat.le_succ_of_le hle)
  rw [Nat.mod_eq_of_lt (show f.tailReserved < g.bufferSize from Nat.lt_succ_of_le htail)] at hmod
  rw [hcons, hmod]
  dsimp only
  rw [ContextPush.rangeEnd_eq htail hpos hle]
  unfold ContextPush.lastMarked increment Geometry.bufferSize at *
  split_ifs <;> omega

theorem allOrNothing_of_full (hfull : f.isFullBy g nObjects = true) : AllOrNothing g f nObjects := by
  have hcons : ContextPush.construct g f nObjects = (f, ⟨nObjects, 0, 0, 0, 0, 0, true⟩) := by
    unfold ContextPush.construct
    rw [if_pos hfull]
  left
  unfold openClose
  rw [hcons]
  exact ⟨rfl, rfl, rfl, rfl⟩

-- Whatever the count, a context that has its slots keeps the head and leaves
-- the tail and the bitmap to the reservation and the commit.
theorem took_iff (hfits : f.isFullBy g nObjects = false) (hpos : 0 < nObjects)
    (hle : nObjects ≤ g.nElements) (htail : f.tailReserved ≤ g.nElements) :
    Took g f (f.openClose g nObjects) nObjects ↔
      f.tailReserved + nObjects ≤ 2 ^ 32 ∧ ContextPush.MarksWhen g f f.tailReserved nObjects := by
  obtain ⟨_, hn, hstart, _, hmoved⟩ := ContextPush.construct_reserves hfits
  obtain ⟨tail, hcons⟩ : ∃ tail, (ContextPush.construct g f nObjects).1 = { f with tailReserved := tail } :=
    ⟨_, hmoved⟩
  obtain ⟨hhead, htail', _⟩ := destruct_frame g (ContextPush.construct g f nObjects).1
    (ContextPush.construct g f nObjects).2
  have hmarks := ContextPush.marksExactly_iff_when (ContextPush.construct g f nObjects).1 htail hpos hle hfits
  have hsame : ∀ slot, (ContextPush.construct g f nObjects).1.isReady slot = f.isReady slot := by
    intro slot
    rw [hcons]
    rfl
  have hwhen : ContextPush.MarksWhen g (ContextPush.construct g f nObjects).1 f.tailReserved nObjects ↔
      ContextPush.MarksWhen g f f.tailReserved nObjects := by
    unfold ContextPush.MarksWhen
    simp only [hsame]
  rw [hwhen] at hmarks
  unfold ContextPush.MarksExactly ContextPush.Owns at hmarks
  simp only [hn, hstart, hsame] at hmarks
  rw [← hmarks, ← construct_tail_eq_iff htail hpos hle hfits]
  constructor
  · rintro ⟨_, _, htook, hready⟩
    exact ⟨htail'.symm.trans htook, hready⟩
  · rintro ⟨htook, hready⟩
    refine ⟨used_add_le htail hle hfits, ?_, htail'.trans htook, hready⟩
    rw [openClose, hhead, hcons]

-- A context of no slots moves the tail by one, onto a slot it marks.
theorem took_zero_iff (htail : f.tailReserved ≤ g.nElements) :
    Took g f (f.openClose g 0) 0 ↔ g.nElements = 0 ∧ f.isReady 0 = true := by
  have hfits : f.isFullBy g 0 = false := by
    unfold isFullBy Geometry.bufferSize
    split_ifs <;> simp <;> omega
  obtain ⟨hover, _, hstart, hend, hmoved⟩ := ContextPush.construct_reserves hfits
  have hN := g.bufferSize_lt
  -- increment refuses 2^32 - 1
  have hsame : (incrementBy g f.tailReserved (uint32Sub 0 1)).2 = f.tailReserved := by
    unfold incrementBy Geometry.bufferSize at *
    rw [if_pos (show g.nElements < uint32Sub 0 1 from by unfold uint32Sub uint32; omega)]
  rw [hsame] at hend hmoved
  obtain ⟨hkeep, hset, _⟩ := destruct_frame g (ContextPush.construct g f 0).1
    (ContextPush.construct g f 0).2
  have hhead : (f.openClose g 0).head = f.head := hkeep.trans (by rw [hmoved])
  have htail' : (f.openClose g 0).tailReserved = increment g f.tailReserved := hset.trans (by rw [hmoved])
  have hready := ContextPush.destruct_isReady_iff g (ContextPush.construct g f 0).1
    (ContextPush.construct g f 0).2 hover (hstart ▸ htail) (hend ▸ htail) fun _ => Nat.zero_le _
  have hmod : (f.tailReserved + 0) % g.bufferSize = f.tailReserved :=
    Nat.mod_eq_of_lt (Nat.lt_succ_of_le htail)
  constructor
  · rintro ⟨_, _, htook, hbits⟩
    have hstay : increment g f.tailReserved = f.tailReserved := htail'.symm.trans (htook.trans hmod)
    have hone : g.nElements = 0 ∧ f.tailReserved = 0 := by
      unfold increment at hstay
      split at hstay <;> omega
    refine ⟨hone.1, ?_⟩
    have hbit := (hbits 0 (Nat.zero_le _)).mp (hready.mpr (.inl ⟨Nat.zero_le _, by
      rw [hstart, hend, hone.2]
      exact ⟨Nat.le_refl _, Nat.le_refl _⟩⟩))
    exact hbit.resolve_left fun ⟨k, hk, _⟩ => absurd hk (Nat.not_lt_zero k)
  · rintro ⟨hone, hbit⟩
    have hzero : f.tailReserved = 0 := by omega
    refine ⟨?_, hhead, ?_, ?_⟩
    · unfold used Geometry.bufferSize
      split <;> omega
    · rw [hmod]
      refine htail'.trans ?_
      unfold increment
      split <;> omega
    · intro slot hslot
      obtain rfl : slot = 0 := by omega
      rw [hbit]
      simp only [or_true, iff_true]
      refine hready.mpr (.inr ?_)
      rw [hmoved]
      exact hbit

-- A context takes exactly the slots it asks for, or none, just in these cases.
theorem open_close_all_or_nothing_iff (htail : f.tailReserved ≤ g.nElements) :
    AllOrNothing g f nObjects ↔ AllOrNothingWhen g f nObjects := by
  cases hfull : f.isFullBy g nObjects with
  | true => exact iff_of_true (allOrNothing_of_full hfull) (.inl hfull)
  | false =>
      have hover := (ContextPush.construct_reserves hfull).1
      unfold AllOrNothing AllOrNothingWhen
      rw [hfull, hover]
      simp only [Bool.false_eq_true, false_and, false_or, true_and]
      rcases Nat.eq_zero_or_pos nObjects with rfl | hpos
      · rw [took_zero_iff htail]
        simp
      · have hne : nObjects ≠ 0 := by omega
        simp only [hpos, hne, true_and, false_and, or_false]
        by_cases hle : nObjects ≤ g.nElements
        · simp only [hle, true_and]
          exact took_iff hfull hpos hle htail
        · simp only [hle, false_and, iff_false]
          intro htook
          have hroom := htook.room
          omega

-- A full FIFO of 7 elements: a context of no slots moves the tail onto the head.
theorem empty_context_empties_full :
    ¬∀ (g : Geometry) (f : Fifo Unit) (nObjects : Nat), f.head ≤ g.nElements →
      f.tailReserved ≤ g.nElements → nObjects < 2 ^ 32 → AllOrNothing g f nObjects := by
  intro h
  have hall := h (.ofBytes 7 0 (by decide)) ⟨7, 0, fun _ => 0x7F, fun _ => ()⟩ 0 (by decide) (by decide)
    (by decide)
  rcases hall with ⟨hover, _⟩ | ⟨_, htook⟩
  · revert hover
    decide
  · have htail := htook.tail
    revert htail
    decide

theorem open_close_three :
    AllOrNothing (.ofBytes 15 0 (by decide)) ⟨2, 0, fun _ => 3, fun _ => ()⟩ 3 :=
  (open_close_all_or_nothing_iff (by decide)).mpr
    (.inr (.inl ⟨by decide, by decide, by decide, .inl (by decide)⟩))

end Fifo

end Carbon
