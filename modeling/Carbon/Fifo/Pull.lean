import Carbon.Fifo.Lemmas

namespace Carbon

variable {α : Type} (g : Geometry)

namespace Fifo

-- Every slot from the head up to N is ready except N itself, and slot 0 is
-- ready: the first loop of getElementReady then leaves by its wrap test, which
-- comes before its test for an empty slot.
def HoleBeforeWrap (f : Fifo α) : Prop :=
  0 < f.head ∧ (∀ slot < g.nElements, f.head ≤ slot → f.isReady slot = true) ∧
    f.isReady g.nElements = false ∧ f.isReady 0 = true

instance (f : Fifo α) : Decidable (HoleBeforeWrap g f) := by
  unfold HoleBeforeWrap; infer_instance

-- The first loop counts the ready slots from the head. It hands over to the
-- second loop at slot 0 if the head is not slot 0 and it got past slot N.
theorem elementReady1_spec (f : Fifo α) (fuel current : Nat)
    (hlo : f.head ≤ current) (hhi : current ≤ g.nElements) (hfuel : g.nElements < current + fuel)
    (hready : ∀ slot, f.head ≤ slot → slot < current → f.isReady slot = true) :
    ∃ dataLength1 rest,
      f.elementReady1 g fuel current (current - f.head) = some (dataLength1, rest) ∧
      f.head + dataLength1 ≤ g.bufferSize ∧
      (∀ slot, f.head ≤ slot → slot < f.head + dataLength1 → f.isReady slot = true) ∧
      (rest = none ∧ (f.head + dataLength1 ≤ g.nElements → f.isReady (f.head + dataLength1) = false) ∧
          (0 < f.head → f.head + dataLength1 < g.nElements) ∨
        rest = some 0 ∧ 0 < f.head ∧ g.nElements ≤ f.head + dataLength1 ∧
          (f.head + dataLength1 = g.nElements → f.isReady g.nElements = false)) := by
  unfold Geometry.bufferSize
  induction fuel generalizing current with
  | zero => omega
  | succ fuel ih =>
      have hsum : f.head + (current - f.head) = current := by omega
      have hsum' : f.head + (current - f.head + 1) = current + 1 := by omega
      unfold elementReady1 increment
      cases hr : f.isReady current with
      | false =>
          by_cases hn : current < g.nElements
          · refine ⟨current - f.head, none, ?_, by omega, ?_, .inl ⟨rfl, ?_, fun _ => by omega⟩⟩
            · have : ¬current + 1 < f.head := by omega
              simp [hn, this]
            · rw [hsum]; exact hready
            · rw [hsum]; exact fun _ => hr
          · have hcur : current = g.nElements := by omega
            by_cases h0 : 0 < f.head
            · refine ⟨current - f.head, some 0, ?_, by omega, ?_, .inr ⟨rfl, h0, by omega, ?_⟩⟩
              · simp [hn, h0]
              · rw [hsum]; exact hready
              · exact fun _ => hcur ▸ hr
            · refine ⟨current - f.head, none, ?_, by omega, ?_, .inl ⟨rfl, ?_, fun h => absurd h h0⟩⟩
              · simp [hn, h0]
              · rw [hsum]; exact hready
              · rw [hsum]; exact fun _ => hr
      | true =>
          have hnext : ∀ slot, f.head ≤ slot → slot < current + 1 → f.isReady slot = true := by
            intro slot hs hs'
            rcases Nat.lt_succ_iff_lt_or_eq.mp hs' with hlt | rfl
            · exact hready slot hs hlt
            · exact hr
          by_cases hn : current < g.nElements
          · have h1 : ¬current + 1 < f.head := by omega
            have h2 : current + 1 ≠ f.head := by omega
            have hsub : current - f.head + 1 = current + 1 - f.head := by omega
            simp only [hn, ite_true, Bool.not_true, Bool.false_eq_true, ite_false, h1, h2, or_self, hsub]
            exact ih (current + 1) (by omega) (by omega) (by omega) hnext
          · by_cases h0 : 0 < f.head
            · refine ⟨current - f.head + 1, some 0, ?_, by omega, ?_, .inr ⟨rfl, h0, by omega, by omega⟩⟩
              · simp [hn, h0]
              · rw [hsum']; exact hnext
            · refine ⟨current - f.head + 1, none, ?_, by omega, ?_, .inl ⟨rfl, by omega, by omega⟩⟩
              · have : 0 = f.head := by omega
                simp [hn, ← this]
              · rw [hsum']; exact hnext

theorem elementReady2_spec (f : Fifo α) (hhead : f.head ≤ g.nElements) (fuel current : Nat)
    (hhi : current < f.head) (hfuel : f.head ≤ current + fuel)
    (hready : ∀ slot < current, f.isReady slot = true) :
    ∃ dataLength2, f.elementReady2 g fuel current current = some dataLength2 ∧
      dataLength2 ≤ f.head ∧ (∀ slot < dataLength2, f.isReady slot = true) ∧
      (dataLength2 < f.head → f.isReady dataLength2 = false) := by
  induction fuel generalizing current with
  | zero => omega
  | succ fuel ih =>
      have hn : current < g.nElements := by omega
      unfold elementReady2 increment
      cases hr : f.isReady current with
      | false => exact ⟨current, by simp, by omega, hready, fun _ => hr⟩
      | true =>
          have hnext : ∀ slot < current + 1, f.isReady slot = true := by
            intro slot hs
            rcases Nat.lt_succ_iff_lt_or_eq.mp hs with hlt | rfl
            · exact hready slot hlt
            · exact hr
          by_cases hstop : f.head ≤ current + 1
          · exact ⟨current + 1, by simp [hn, hstop], by omega, hnext, by omega⟩
          · simp only [hn, ite_true, Bool.not_true, Bool.false_eq_true, ite_false, hstop, or_self]
            exact ih (current + 1) (by omega) (by omega) hnext

-- The two pieces of a run of `count` slots from `head` on.
def Pieces (head count dataLength1 dataLength2 : Nat) : Prop :=
  dataLength1 = min count (g.bufferSize - head) ∧ dataLength2 = count - dataLength1

-- Without a hole in slot N the two lengths are the maximal ready run.
theorem getElementReady_exact (f : Fifo α) (hhead : f.head ≤ g.nElements)
    (hhole : ¬HoleBeforeWrap g f) :
    ∃ count dataLength1 dataLength2, f.getElementReady g = some (dataLength1, dataLength2) ∧
      Pieces g f.head count dataLength1 dataLength2 ∧ count ≤ g.bufferSize ∧
      (∀ k < count, f.isReady ((f.head + k) % g.bufferSize) = true) ∧
      (count < g.bufferSize → f.isReady ((f.head + count) % g.bufferSize) = false) := by
  obtain ⟨d1, rest, heq, hle, hrun, hstop⟩ := elementReady1_spec g f g.bufferSize f.head
    (Nat.le_refl _) hhead (by unfold Geometry.bufferSize; omega) (by intro slot h1 h2; omega)
  have hfirst : ∀ k < d1, f.isReady ((f.head + k) % g.bufferSize) = true := by
    intro k hk
    rw [Nat.mod_eq_of_lt (by omega)]
    exact hrun _ (by omega) (by omega)
  rw [Nat.sub_self] at heq
  unfold Pieces Geometry.bufferSize at *
  rcases hstop with ⟨rfl, hend, hlast⟩ | ⟨rfl, h0, hN, hend⟩
  · refine ⟨d1, d1, 0, by simp [getElementReady, Geometry.bufferSize, heq], by omega, by omega,
      hfirst, ?_⟩
    intro hlt
    have : f.head + d1 ≤ g.nElements := by omega
    rw [Nat.mod_eq_of_lt (by omega)]
    exact hend this
  · obtain ⟨d2, heq2, hle2, hrun2, hstop2⟩ := elementReady2_spec g f hhead (g.nElements + 1) 0 h0
      (by omega) (by intro slot h; omega)
    have hget : f.getElementReady g = some (d1, d2) := by
      simp [getElementReady, Geometry.bufferSize, heq, heq2]
    by_cases hgap : f.head + d1 = g.nElements
    · have hzero : d2 = 0 := by
        by_contra hpos
        refine hhole ⟨h0, ?_, hend hgap, hrun2 0 (by omega)⟩
        exact fun slot hs hs' => hrun slot hs' (by omega)
      subst hzero
      refine ⟨d1, d1, 0, hget, by omega, by omega, hfirst, ?_⟩
      intro _
      rw [Nat.mod_eq_of_lt (by omega), hgap]
      exact hend hgap
    · have hfull : f.head + d1 = g.nElements + 1 := by omega
      refine ⟨d1 + d2, d1, d2, hget, by omega, by omega, ?_, ?_⟩
      · intro k hk
        by_cases hk1 : k < d1
        · exact hfirst k hk1
        · rw [show f.head + k = k - d1 + (g.nElements + 1) by omega, Nat.add_mod_right,
            Nat.mod_eq_of_lt (by omega)]
          exact hrun2 _ (by omega)
      · intro hlt
        rw [show f.head + (d1 + d2) = d2 + (g.nElements + 1) by omega, Nat.add_mod_right,
          Nat.mod_eq_of_lt (by omega)]
        exact hstop2 (by omega)

-- With such a hole the second piece is exposed although slot N is not ready.
theorem getElementReady_hole (f : Fifo α) (hhead : f.head ≤ g.nElements)
    (hhole : HoleBeforeWrap g f) :
    ∃ dataLength2, f.getElementReady g = some (g.nElements - f.head, dataLength2) ∧
      0 < dataLength2 := by
  obtain ⟨h0, hrun, hN, hzero⟩ := hhole
  obtain ⟨d1, rest, heq, hle, hready, hstop⟩ := elementReady1_spec g f g.bufferSize f.head
    (Nat.le_refl _) hhead (by unfold Geometry.bufferSize; omega) (by intro slot h1 h2; omega)
  have hshort : f.head + d1 ≤ g.nElements := by
    by_contra hlt
    have := hready g.nElements hhead (by omega)
    rw [hN] at this
    cases this
  rw [Nat.sub_self] at heq
  rcases hstop with ⟨rfl, hend, hlast⟩ | ⟨rfl, _, hreach, hend⟩
  · have := hend hshort
    rw [hrun _ (hlast h0) (by omega)] at this
    cases this
  · obtain ⟨d2, heq2, _, _, hstop2⟩ := elementReady2_spec g f hhead g.bufferSize 0 h0
      (by unfold Geometry.bufferSize; omega) (by intro slot h; omega)
    have hd1 : d1 = g.nElements - f.head := by omega
    refine ⟨d2, by simp [getElementReady, heq, heq2, hd1], ?_⟩
    by_contra hpos
    have hd2 : d2 = 0 := by omega
    have := hstop2 (by omega)
    rw [hd2, hzero] at this
    cases this

-- The remove of a padded type: `narrow object value` is what the bytes it copies
-- out of the slot leave in the caller's object.
def popNarrow (narrow : α → α → α) (f : Fifo α) (object : α) (currentHead : Nat) : α :=
  if g.fits currentHead 1 then narrow object (f.buffer currentHead) else object

-- A whole call of pop, and calls of pop in a row with the values they return.
def pop (narrow : α → α → α) (f : Fifo α) (object : α) : Option α × Fifo α :=
  match f.popLook with
  | none => (none, f)
  | some currentHead =>
      (some ((f.popRemove g object currentHead).getD (f.popNarrow g narrow object currentHead)),
        f.popAdvance g currentHead)

def pops (narrow : α → α → α) (object : α) : Nat → Fifo α → List α × Fifo α
  | 0, f => ([], f)
  | count + 1, f =>
      let (value, f) := pop g narrow f object
      let (values, f) := pops narrow object count f
      (value.toList ++ values, f)

-- What a single pop returns for the element of a slot.
def returned (narrow : α → α → α) (object value : α) : α :=
  if g.packed then value else narrow object value

theorem pop_value (narrow : α → α → α) (f : Fifo α) (object : α) {currentHead : Nat}
    (hfits : g.fits currentHead 1 = true) :
    (f.popRemove g object currentHead).getD (f.popNarrow g narrow object currentHead) =
      returned g narrow object (f.buffer currentHead) := by
  unfold popRemove popNarrow returned
  cases g.packed <;> simp [hfits]

end Fifo

namespace ContextPull

-- removeHead k times, seen from outside: k slots from the head on lose their
-- bit and the head moves past them.
theorem removeHead_iterate (f : Fifo α) {low : Nat} (hhead : f.head = low % g.bufferSize)
    (count : Nat) :
    ((removeHead g)^[count] f).head = (low + count) % g.bufferSize ∧
      ((removeHead g)^[count] f).tailReserved = f.tailReserved ∧
      ((removeHead g)^[count] f).buffer = f.buffer ∧
      ∀ slot, ((removeHead g)^[count] f).isReady slot = true ↔
        f.isReady slot = true ∧ ∀ k < count, slot ≠ (low + k) % g.bufferSize := by
  induction count with
  | zero => exact ⟨hhead, rfl, rfl, fun slot => by simp⟩
  | succ count ih =>
      obtain ⟨ihhead, ihtail, ihbuffer, ihready⟩ := ih
      rw [Function.iterate_succ_apply']
      refine ⟨?_, ihtail, ihbuffer, fun slot => ?_⟩
      · simp only [removeHead]
        rw [ihhead, Fifo.increment_mod, Nat.add_assoc]
      · change (((removeHead g)^[count] f).clearReady _).isReady slot = true ↔ _
        rw [Fifo.bit_clearReady, Bool.and_eq_true, ihready, ihhead, decide_eq_true_eq,
          Nat.forall_lt_succ_right, and_assoc]

-- As many single pops return the slots' contents and leave the same FIFO.
theorem pops_eq (narrow : α → α → α) (f : Fifo α) {low : Nat} (hhead : f.head = low % g.bufferSize)
    (object : α) (count : Nat) (hcount : count ≤ g.bufferSize)
    (hready : ∀ k < count, f.isReady ((low + k) % g.bufferSize) = true) :
    Fifo.pops g narrow object count f =
      ((List.range count).map fun k =>
          Fifo.returned g narrow object (f.buffer ((low + k) % g.bufferSize)),
        (removeHead g)^[count] f) := by
  induction count generalizing f low with
  | zero => rfl
  | succ count ih =>
      have hle : f.head ≤ g.nElements := by
        rw [hhead]; exact Nat.le_of_lt_succ (Nat.mod_lt _ (Nat.succ_pos _))
      have hlook : f.popLook = some f.head := by
        have := hready 0 (by omega)
        rw [Nat.add_zero, ← hhead] at this
        simp [Fifo.popLook, this]
      have hfits : g.fits f.head 1 = true :=
        g.fits_of_le hle (by unfold Geometry.bufferSize; omega)
      obtain ⟨hhead', _, hbuffer', hready'⟩ := removeHead_iterate g f hhead 1
      have hrest := ih (removeHead g f) hhead' (by omega) (by
        intro k hk
        refine (hready' _).mpr ⟨?_, ?_⟩
        · have := hready (k + 1) (by omega)
          rwa [Nat.add_comm k 1, ← Nat.add_assoc] at this
        · intro j hj heq
          have hj0 : j = 0 := by omega
          subst hj0
          have := Cyclic.window_inj g.bufferSize low (by omega) (by omega)
            (Nat.le_refl _) (by omega) heq
          omega)
      have hstep : f.popAdvance g f.head = removeHead g f := rfl
      rw [Function.iterate_succ_apply, Fifo.pops, Fifo.pop, hlook]
      simp only [hstep, hrest, Fifo.pop_value g narrow f object hfits, Option.toList_some,
        List.singleton_append, List.range_succ_eq_map, List.map_cons, List.map_map, Nat.add_zero,
        ← hhead]
      have hbuf : (removeHead g f).buffer = f.buffer := rfl
      simp only [hbuf, Prod.mk.injEq, List.cons.injEq, true_and, and_true]
      apply List.map_congr_left
      intro k _
      simp only [Function.comp_apply, Nat.succ_eq_add_one]
      rw [Nat.add_assoc, Nat.add_comm 1 k]

end ContextPull

end Carbon
