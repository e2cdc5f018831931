import Carbon.Library.Cyclic
import Carbon.Fifo.Context

namespace Carbon

variable {α : Type} (g : Geometry)

namespace Fifo

theorem increment_le (index : Nat) : increment g index ≤ g.nElements := by
  unfold increment
  split <;> omega

theorem increment_mod (i : Nat) : increment g (i % g.bufferSize) = (i + 1) % g.bufferSize :=
  (Cyclic.succ_mod_eq i g.nElements).symm

theorem incrementBy_le {index nIncrement : Nat} (hi : index ≤ g.nElements) :
    (incrementBy g index nIncrement).2 ≤ g.nElements := by
  have hlt := g.bufferSize_lt
  have hsum := uint32_lt (index + nIncrement)
  unfold incrementBy Geometry.bufferSize at *
  split_ifs with h1 h2
  · exact hi
  · simp only; omega
  · have hmod : uint32 (index + nIncrement) ≤ index + nIncrement := Nat.mod_le _ _
    simp only
    omega

theorem incrementBy_mod (i : Nat) {nIncrement : Nat} (hn : nIncrement ≤ g.nElements)
    (hlt : i % g.bufferSize + nIncrement < 2 ^ 32) :
    incrementBy g (i % g.bufferSize) nIncrement = (true, (i + nIncrement) % g.bufferSize) := by
  have hmod := Cyclic.add_mod_eq i nIncrement g.bufferSize (Nat.succ_pos _)
    (Nat.le_succ_of_le hn)
  unfold incrementBy
  rw [if_neg (by omega), uint32_of_lt hlt, hmod]
  split <;> simp

-- With low entries consumed and high reserved, the two tests for room compare
-- the number of entries in use with N.
theorem isFull_iff (f : Fifo α) {low high : Nat} (hle : low ≤ high)
    (hn : high ≤ low + g.nElements) (hhead : f.head = low % g.bufferSize)
    (htail : f.tailReserved = high % g.bufferSize) :
    f.isFull g = true ↔ high - low = g.nElements := by
  have hsucc := increment_mod g high
  simp only [isFull, decide_eq_true_eq, hhead, htail, hsucc]
  constructor
  · intro h
    by_contra hne
    have := Cyclic.eq_of_mod_eq (n := g.nElements) (by omega) (by omega) h
    omega
  · intro h
    have : high + 1 = low + g.bufferSize := by unfold Geometry.bufferSize; omega
    rw [this, Nat.add_mod_right]

theorem isFullBy_iff (f : Fifo α) {low high nIncrement : Nat} (hle : low ≤ high)
    (hn : high ≤ low + g.nElements) (hhead : f.head = low % g.bufferSize)
    (htail : f.tailReserved = high % g.bufferSize) (hinc : nIncrement ≤ g.nElements) :
    f.isFullBy g nIncrement = true ↔ g.nElements < high - low + nIncrement := by
  have hr : high % (g.nElements + 1) < g.nElements + 1 := Nat.mod_lt _ (by omega)
  unfold isFullBy
  rw [if_neg (by omega), hhead, htail]
  unfold Geometry.bufferSize
  split_ifs with h1 h2
  · have := Cyclic.distance_of_gt hle hn h1
    simp only [decide_eq_true_eq]
    omega
  · have := Cyclic.distance_of_lt hle hn h2
    simp only [decide_eq_true_eq]
    omega
  · have := Cyclic.eq_of_mod_eq hle hn (by omega)
    simp only [false_iff]
    omega

theorem bit_setReady (f : Fifo α) (i slot : Nat) :
    (f.setReady i).isReady slot = (decide (slot = i) || f.isReady slot) := by
  simp [isReady_eq_bit, setReady]

theorem bit_clearReady (f : Fifo α) (i slot : Nat) :
    (f.clearReady i).isReady slot = (f.isReady slot && decide (slot ≠ i)) := by
  simp [isReady_eq_bit, clearReady]

theorem write_cons (f : Fifo α) (insert : Insert α) (rest : List (Insert α)) :
    f.write (insert :: rest) = (f.write [insert]).write rest := rfl

theorem write_untouched (f : Fifo α) (inserts : List (Insert α)) (slot : Nat)
    (h : ∀ insert ∈ inserts, ¬insert.Touches slot) :
    (f.write inserts).buffer slot = f.buffer slot := by
  suffices hfold : ∀ buffer : Nat → α,
      inserts.foldl (fun buffer insert => insert.apply buffer) buffer slot = buffer slot from
    hfold f.buffer
  induction inserts with
  | nil => intro buffer; rfl
  | cons insert rest ih =>
      intro buffer
      rw [List.foldl_cons, ih (fun other ho => h other (List.mem_cons_of_mem _ ho)),
        insert.apply_untouched buffer slot (h insert (by simp))]

@[simp] theorem write_one (f : Fifo α) (slot : Nat) (object : α) :
    (f.write [⟨slot, [object]⟩]).buffer slot = object := by
  have := Insert.apply_add ⟨slot, [object]⟩ f.buffer 0 (by simp)
  simpa [write] using this

end Fifo

namespace ContextPush

-- The commit of a range from `start` to `finish` sets the right bits if the
-- range does not wrap, or if it ends in an earlier byte than it starts and the
-- slots in front of it in the last byte of the bitmap are ready anyway.
def CommitExact (f : Fifo α) (start finish : Nat) : Prop :=
  start ≤ finish ∨
    finish / 8 < start / 8 ∧
      ∀ slot < start, slot / 8 = g.nElements / 8 → f.isReady slot = true

instance (f : Fifo α) (start finish : Nat) : Decidable (CommitExact g f start finish) := by
  unfold CommitExact; infer_instance

-- The bits that the masks of the destructor set.
def Marked (start finish slot : Nat) : Prop :=
  if start ≤ finish then start ≤ slot ∧ slot ≤ finish
  else if start / 8 = finish / 8 then False
  else slot / 8 = g.nElements / 8 ∨ start ≤ slot ∨ slot ≤ finish

theorem destruct_isReady_iff (f : Fifo α) (c : ContextPush) (hover : c.isOverflow = false)
    (hstart : c.fifoPosStart ≤ g.nElements) (hend : c.fifoPosEnd ≤ g.nElements) {slot : Nat}
    (hbit : f.isReady slot = true → slot ≤ g.nElements) :
    (destruct g f c).isReady slot = true ↔
      slot ≤ g.nElements ∧ Marked g c.fifoPosStart c.fifoPosEnd slot ∨ f.isReady slot = true := by
  simp only [Fifo.isReady_eq_bit] at hbit ⊢
  unfold destruct
  rw [hover]
  unfold Marked
  by_cases h1 : c.fifoPosStart / 8 = c.fifoPosEnd / 8
  · simp only [Bool.false_eq_true, ite_false, h1, ite_true, Packed.bit_orAt,
      BitVec.getLsbD_and, Packed.getLsbD_upward, Packed.getLsbD_downward]
    cases Packed.bit f.tailReady slot with
    | true => simp
    | false =>
        simp only [Bool.false_or, Bool.and_eq_true, decide_eq_true_eq, Bool.false_eq_true, or_false]
        split_ifs
        · omega
        · rw [and_false, iff_false]
          omega
  · by_cases h2 : c.fifoPosStart / 8 < c.fifoPosEnd / 8
    · simp only [Bool.false_eq_true, ite_false, h1, h2, ite_true, Packed.bit_orAt,
        Packed.bit_fill, Packed.getLsbD_upward, Packed.getLsbD_downward]
      cases Packed.bit f.tailReady slot with
      | true => simp
      | false =>
          simp only [Bool.false_or, Bool.or_eq_true, Bool.and_eq_true, decide_eq_true_eq,
            Bool.false_eq_true, or_false]
          split_ifs <;> omega
    · -- A wrapped range: the last byte of the bitmap is assigned, not extended.
      simp only [Bool.false_eq_true, ite_false, h1, h2, Packed.bit_fill, Packed.bit_update,
        Packed.bit_orAt, Packed.getLsbD_upward, Packed.getLsbD_downward]
      have hwraps : ¬c.fifoPosStart ≤ c.fifoPosEnd := by omega
      rw [if_neg hwraps]
      by_cases hlast : slot / 8 = g.nElements / 8
      · simp only [hlast, ite_true, true_or, and_true, Bool.or_eq_true, decide_eq_true_eq]
        cases hready : Packed.bit f.tailReady slot with
        | true =>
            have hslot := hbit hready
            simp only [or_true, iff_true]
            omega
        | false =>
            simp only [Bool.false_eq_true, or_false]
            omega
      · simp only [hlast, ite_false, false_or]
        cases Packed.bit f.tailReady slot with
        | true => simp
        | false =>
            simp only [Bool.false_or, Bool.or_eq_true, Bool.and_eq_true, decide_eq_true_eq,
              Bool.false_eq_true, or_false]
            omega

theorem destruct_isReady (f : Fifo α) (c : ContextPush) (hover : c.isOverflow = false)
    (hstart : c.fifoPosStart ≤ g.nElements) (hend : c.fifoPosEnd ≤ g.nElements)
    (hne : Fifo.increment g c.fifoPosEnd ≠ c.fifoPosStart)
    (hexact : CommitExact g f c.fifoPosStart c.fifoPosEnd)
    (hbits : ∀ slot, f.isReady slot = true → slot ≤ g.nElements) (slot : Nat) :
    (destruct g f c).isReady slot = true ↔
      Cyclic.Between g.nElements c.fifoPosStart (Fifo.increment g c.fifoPosEnd) slot ∨
        f.isReady slot = true := by
  rw [destruct_isReady_iff g f c hover hstart hend (hbits slot)]
  cases hbit : f.isReady slot with
  | true => simp
  | false =>
      have hfront : slot < c.fifoPosStart → slot / 8 = g.nElements / 8 →
          c.fifoPosStart ≤ c.fifoPosEnd := fun hlt hlast =>
        hexact.resolve_right fun h => by simpa [hbit] using h.2 slot hlt hlast
      have hbyte : c.fifoPosStart ≤ c.fifoPosEnd ∨ c.fifoPosEnd / 8 < c.fifoPosStart / 8 :=
        hexact.imp_right And.left
      unfold Marked Cyclic.Between Fifo.increment at *
      simp only [Bool.false_eq_true, or_false]
      split_ifs at hne ⊢ <;> omega

variable {g}

theorem construct_reserves {f : Fifo α} {nObjects : Nat}
    (hfits : f.isFullBy g nObjects = false) :
    (construct g f nObjects).2.isOverflow = false ∧
      (construct g f nObjects).2.nObjects = nObjects ∧
      (construct g f nObjects).2.fifoPosStart = f.tailReserved ∧
      (construct g f nObjects).2.fifoPosEnd =
        (Fifo.incrementBy g f.tailReserved (uint32Sub nObjects 1)).2 ∧
      (construct g f nObjects).1 = { f with
        tailReserved :=
          Fifo.increment g (Fifo.incrementBy g f.tailReserved (uint32Sub nObjects 1)).2 } := by
  obtain ⟨moved, hmoved⟩ : ∃ moved, Fifo.incrementBy g f.tailReserved (uint32Sub nObjects 1) = moved :=
    ⟨_, rfl⟩
  obtain ⟨dataLength1, hcons⟩ : ∃ dataLength1, construct g f nObjects =
      ({ f with tailReserved := Fifo.increment g moved.2 },
        ⟨nObjects, f.tailReserved, f.tailReserved, moved.2, dataLength1, nObjects - dataLength1,
          false⟩) := by
    refine ⟨if uint32 (f.tailReserved + nObjects) ≤ g.bufferSize then nObjects
      else g.bufferSize - f.tailReserved, ?_⟩
    unfold construct
    rw [if_neg (ne_true_of_eq_false hfits)]
    simp only [hmoved, decide_eq_true_eq]
  rw [hcons, hmoved]
  exact ⟨rfl, rfl, rfl, rfl, rfl⟩

-- A context overflows just when it found no room.
theorem construct_isOverflow (f : Fifo α) (nObjects : Nat) :
    (construct g f nObjects).2.isOverflow = f.isFullBy g nObjects := by
  cases hfull : f.isFullBy g nObjects with
  | true =>
      unfold construct
      rw [if_pos hfull]
  | false => exact (construct_reserves hfull).1

end ContextPush

end Carbon
